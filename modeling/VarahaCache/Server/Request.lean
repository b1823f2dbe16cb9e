import VarahaCache.Storage.ObjCore
import VarahaCache.Vcl.Context

/-!
# The request context and its state machine

`RequestContext` and `RequestFsm` of `rv-cache`. The transaction id and the
arrival time are only logged and are left out.
-/

namespace VarahaCache

inductive RequestState
  | recv | lookup | pass | pipe | miss | fetch | deliver | synth | done
deriving DecidableEq

/-- Everything one request carries through its states. -/
structure RequestContext where
  state : RequestState
  request : HttpMessage
  response : Option HttpMessage
  vclAction : Option VclAction
  restarts : Nat
  maxRestarts : Nat
  synthStatus : Option HttpStatus
  synthBody : Option (List UInt8)
  bereq : Option HttpMessage
  beresp : Option HttpMessage
  obj : Option ObjCore
  digest : Option Digest
  isPass : Bool
  body : Option (List UInt8)
  respBody : Option (List UInt8)
  doGzip : Bool
  doGunzip : Bool
  uncacheable : Bool
  berespTtl : Option ℚ
  berespGrace : Option ℚ
  berespKeep : Option ℚ
deriving DecidableEq

def RequestContext.new (request : HttpMessage) : RequestContext :=
  { state := .recv, request := request, response := none, vclAction := none, restarts := 0,
    maxRestarts := 4, synthStatus := none, synthBody := none, bereq := none, beresp := none,
    obj := none, digest := none, isPass := false, body := none, respBody := none,
    doGzip := false, doGunzip := false, uncacheable := false, berespTtl := none,
    berespGrace := none, berespKeep := none }

namespace RequestFsm

def handleRecv (ctx : RequestContext) : RequestState :=
  match ctx.vclAction with
  | some .lookup | some .hash => .lookup
  | some .pass => .pass
  | some .pipe => .pipe
  | some .synth => .synth
  | some .purge => .lookup
  | _ => .lookup

/-- A restart goes back to `Recv` here, and the restart counter stays. -/
def handleLookup (ctx : RequestContext) : RequestState :=
  match ctx.vclAction with
  | some .deliver => .deliver
  | some .pass => .pass
  | some .fetch => .miss
  | some .synth => .synth
  | some .restart => .recv
  | _ => .miss

def step (ctx : RequestContext) : RequestContext :=
  { ctx with
    state := match ctx.state with
      | .recv => handleRecv ctx
      | .lookup => handleLookup ctx
      | .pass => .fetch
      | .pipe => .done
      | .miss => .fetch
      | .fetch => .deliver
      | .deliver => .done
      | .synth => .deliver
      | .done => .done }

variable {ctx : RequestContext}

theorem step_recv (h : ctx.state = .recv) : step ctx = { ctx with state := handleRecv ctx } := by
  unfold step
  rw [h]

theorem step_lookup (h : ctx.state = .lookup) :
    step ctx = { ctx with state := handleLookup ctx } := by
  unfold step
  rw [h]

theorem step_fetch (h : ctx.state = .fetch) : step ctx = { ctx with state := .deliver } := by
  unfold step
  rw [h]

theorem handleRecv_cases (ctx : RequestContext) :
    handleRecv ctx = .lookup ∨ handleRecv ctx = .pass ∨ handleRecv ctx = .pipe ∨
      handleRecv ctx = .synth := by
  unfold handleRecv
  split <;> simp

theorem handleRecv_eq_pipe (h : handleRecv ctx = .pipe) : ctx.vclAction = some .pipe := by
  unfold handleRecv at h
  split at h <;> simp_all

theorem handleLookup_cases (ctx : RequestContext) :
    handleLookup ctx = .deliver ∨ handleLookup ctx = .pass ∨ handleLookup ctx = .miss ∨
      handleLookup ctx = .synth ∨
      (handleLookup ctx = .recv ∧ ctx.vclAction = some .restart) := by
  unfold handleLookup
  split <;> simp [*]

end RequestFsm

end VarahaCache
