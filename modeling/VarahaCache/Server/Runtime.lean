import VarahaCache.Cache.Engine
import VarahaCache.Server.Delivery

/-!
# The request loop

`handle_request` of `rv-server`: the loop that drives one request through its
states. `Env` is what the runtime is given from outside: the loaded VCL, the
backend, the storage, the clock and the library calls, indexed by `tick`, the
number of rounds so far, so that none has to answer twice the same. Log lines
and tracing are left out.

A step also returns its `Event`s: the calls it made across the boundary, with
their answers.
-/

namespace VarahaCache

open Text

structure ConnectionInfo where
  clientAddr : SocketAddr
  localAddr : SocketAddr
  isTls : Bool

/-- What one request is processed with. -/
structure Env (σ : Type) where
  vcl : Option VclInterpreter
  connInfo : ConnectionInfo
  backendAddr : Option SocketAddr
  stevedore : Stevedore σ
  /-- `send_backend_request`; an error is its text. -/
  sendBackendRequest :
    Nat → SocketAddr → HttpMessage → Except String (HttpMessage × Option (List UInt8))
  now : Nat → VtimReal
  sha256 : List UInt8 → Digest
  compressGzip : List UInt8 → Option (List UInt8)
  decompressGzip : List UInt8 → Option (List UInt8)
  fromUtf8Lossy : List UInt8 → String

/-- A call a step made, with its answer. -/
inductive Event
  | vcl (sub : VclSub) (result : VclExecResult) (after : VclContext)
  | lookup (digest : Digest) (result : CacheLookupResult)
  | backendRequest (addr : SocketAddr) (bereq : HttpMessage)
  | backendResponse (beresp : HttpMessage) (body : Option (List UInt8))
  | insert (digest : Digest) (body : List UInt8) (result : Except CacheError ObjCore)

/-- One request in flight, with the cache it shares. -/
structure Session (σ : Type) where
  ctx : RequestContext
  cache : CacheEngine σ
  tick : Nat

variable {σ : Type}

def Session.start (cache : CacheEngine σ) (tick : Nat) (request : HttpMessage)
    (body : Option (List UInt8)) : Session σ :=
  ⟨{ RequestContext.new request with body := body }, cache, tick⟩

/-! ## Calling VCL -/

/-- Run a subroutine, if VCL is loaded. -/
def Env.execSubroutine (env : Env σ) (tick : Nat) (sub : VclSub) (vclCtx : VclContext) :
    Option (VclExecResult × VclContext) :=
  env.vcl.map fun vcl => vcl tick sub vclCtx

/-- The context of the subroutines that learn of the client only. -/
def Env.vclContext (env : Env σ) (ctx : RequestContext) (resp bereq beresp : HttpMessage) :
    VclContext :=
  { req := ctx.request, resp := resp, bereq := bereq, beresp := beresp
    clientIp := env.connInfo.clientAddr.ip, restarts := ctx.restarts }

/-- The context of `vcl_recv`, `vcl_hit` and `vcl_deliver`. -/
def Env.vclContextFull (env : Env σ) (ctx : RequestContext) (resp bereq beresp : HttpMessage) :
    VclContext :=
  { env.vclContext ctx resp bereq beresp with
    serverIp := env.connInfo.localAddr.ip, isSsl := env.connInfo.isTls }

/-- The backend request subroutines of the client side start from. -/
def clientBereq (request : HttpMessage) : HttpMessage :=
  .newRequest request.method request.url .http11

/-- The action of a subroutine, with the one a fall through or an error
stands for. -/
def actionOr (fallback : Option VclAction) : VclExecResult → Option VclAction
  | .action a => some (convertAction a)
  | .fallthrough => fallback
  | .error _ => fallback

/-! ## Recv -/

/-- `state_recv`. Only here do a synth's status and body reach the request. -/
def stateRecv (env : Env σ) (tick : Nat) (ctx : RequestContext) : RequestContext × List Event :=
  match env.execSubroutine tick .recv
      { env.vclContextFull ctx (.newResponse .ok .http11) .default .default with
        reqBody := ctx.body } with
  | none => ({ ctx with vclAction := none }, [])
  | some (result, after) =>
    let ctx := { ctx with request := after.req }
    let ctx := match result with
      | .action a =>
        let ctx := { ctx with vclAction := some (convertAction a) }
        if a = .synth then
          { ctx with
            synthStatus := after.synthStatus.map HttpStatus.mk
            synthBody := after.synthBody.map asBytes }
        else ctx
      | .fallthrough => { ctx with vclAction := none }
      | .error _ => { ctx with
          vclAction := some .synth, synthStatus := some .internalServerError }
    (ctx, [.vcl .recv result after])

/-! ## Lookup -/

def cacheKey (request : HttpMessage) : String :=
  (request.getHeader "Host").getD "localhost" ++ ":" ++ request.url

def Env.computeDigest (env : Env σ) (key : String) : Digest := env.sha256 (asBytes key)

def Env.requestDigest (env : Env σ) (request : HttpMessage) : Digest :=
  env.computeDigest (cacheKey request)

/-- The match of `state_lookup`: what each answer of the cache leads to. -/
def answerLookup (env : Env σ) (tick : Nat) (ctx : RequestContext) (result : CacheLookupResult) :
    RequestContext × List Event :=
  match result with
  | .hit oc =>
    let ctx := { ctx with obj := some oc }
    match env.execSubroutine tick .hit
        { env.vclContextFull ctx (.newResponse .ok .http11) .default .default with
          objHits := oc.hits, objTtl := oc.ttl, objGrace := oc.grace, objKeep := oc.keep } with
    | none => ({ ctx with vclAction := some .deliver }, [])
    | some (result, after) =>
      ({ ctx with request := after.req, vclAction := actionOr (some .deliver) result },
        [.vcl .hit result after])
  | .grace oc => ({ ctx with obj := some oc, vclAction := some .deliver }, [])
  | .hitForPass => ({ ctx with vclAction := some .pass }, [])
  | .busy => ({ ctx with vclAction := none }, [])
  | .miss =>
    match env.execSubroutine tick .miss
        (env.vclContext ctx .default (clientBereq ctx.request) .default) with
    | none => ({ ctx with vclAction := none }, [])
    | some (result, after) =>
      ({ ctx with request := after.req, vclAction := actionOr none result },
        [.vcl .miss result after])

/-- `state_lookup`. The request headers do not reach the lookup. -/
def stateLookup (env : Env σ) (tick : Nat) (ctx : RequestContext) (cache : CacheEngine σ) :
    RequestContext × CacheEngine σ × List Event :=
  let digest := env.requestDigest ctx.request
  let found := cache.lookup (env.now tick) digest none
  let r := answerLookup env tick { ctx with digest := some digest } found.1
  (r.1, found.2, .lookup digest found.1 :: r.2)

/-! ## Pass and Miss -/

/-- `run_vcl_pass` and `run_vcl_miss`: an action is kept for the next
states, anything else leaves the last one standing. -/
def runVclSub (sub : VclSub) (env : Env σ) (tick : Nat) (ctx : RequestContext) :
    RequestContext × List Event :=
  match env.execSubroutine tick sub
      (env.vclContext ctx .default (clientBereq ctx.request) .default) with
  | none => (ctx, [])
  | some (result, after) =>
    ({ ctx with request := after.req, vclAction := actionOr ctx.vclAction result },
      [.vcl sub result after])

def runVclPass (env : Env σ) := runVclSub .pass env

def runVclMiss (env : Env σ) := runVclSub .miss env

/-! ## Fetch -/

/-- The backend request: the client's, without its hop and coding headers. -/
def buildBereq (request : HttpMessage) : HttpMessage :=
  (clientBereq request).copyHeadersExcept ["connection", "accept-encoding"] request.headers.headers

/-- A lifetime the subroutine set as a variable. -/
def durationVar (after : VclContext) (name : String) : Option ℚ :=
  (after.localVars.lookup name).map VclValue.toDurationSecs

/-- The cache insertion of `state_fetch`: not on pass, not when uncacheable
and only of a 200 with a body, without Vary data. -/
def storeResponse (env : Env σ) (tick : Nat) (ctx : RequestContext) (cache : CacheEngine σ)
    (beresp : HttpMessage) (body : Option (List UInt8)) : CacheEngine σ × List Event :=
  match body, ctx.digest with
  | some body, some digest =>
    if !ctx.isPass && !ctx.uncacheable && beresp.status == .ok then
      let ttlInfo : TtlInfo :=
        ⟨ctx.berespTtl.getD 120, ctx.berespGrace.getD 10, ctx.berespKeep.getD 0⟩
      let r := cache.insert env.stevedore (env.now tick) digest body ttlInfo none
      (r.2, [.insert digest body r.1.2])
    else (cache, [])
  | _, _ => (cache, [])

/-- What `state_fetch` does with a backend response. -/
def receiveResponse (env : Env σ) (tick : Nat) (ctx : RequestContext) (cache : CacheEngine σ)
    (bereq beresp : HttpMessage) (body : Option (List UInt8)) :
    RequestContext × CacheEngine σ × List Event :=
  match env.execSubroutine tick .backendResponse (env.vclContext ctx .default bereq beresp) with
  | some (.action .abandon, after) =>
    ({ ctx with
        request := after.req, vclAction := some .synth
        synthStatus := some .serviceUnavailable },
      cache, [.vcl .backendResponse (.action .abandon) after])
  | call =>
    let after := (call.map Prod.snd).getD (env.vclContext ctx .default bereq beresp)
    let ctx := { ctx with
      request := after.req
      doGzip := after.doGzip, doGunzip := after.doGunzip
      uncacheable := decide (call.map Prod.fst = some (.action .pass)) || after.uncacheable
      berespTtl := durationVar after "beresp.ttl"
      berespGrace := durationVar after "beresp.grace"
      berespKeep := durationVar after "beresp.keep" }
    let (cache, inserted) := storeResponse env tick ctx cache after.beresp body
    let respBody :=
      if ctx.doGunzip then body.map fun b => (env.decompressGzip b).getD b else body
    ({ ctx with beresp := some after.beresp, respBody := respBody }, cache,
      (call.map fun c => Event.vcl .backendResponse c.1 c.2).toList ++ inserted)

/-- `state_fetch` from the backend call on. -/
def askBackend (env : Env σ) (tick : Nat) (ctx : RequestContext) (cache : CacheEngine σ)
    (addr : SocketAddr) (bereq : HttpMessage) : RequestContext × CacheEngine σ × List Event :=
  let ctx := { ctx with bereq := some bereq }
  match env.sendBackendRequest tick addr bereq with
  | .error e =>
    ({ ctx with
        vclAction := some .synth, synthStatus := some .badGateway
        synthBody := some (asBytes ("Backend fetch failed: " ++ e)) },
      cache, [.backendRequest addr bereq])
  | .ok (beresp, body) =>
    let r := receiveResponse env tick ctx cache bereq beresp body
    (r.1, r.2.1, .backendRequest addr bereq :: .backendResponse beresp body :: r.2.2)

def stateFetch (env : Env σ) (tick : Nat) (ctx : RequestContext) (cache : CacheEngine σ) :
    RequestContext × CacheEngine σ × List Event :=
  match env.backendAddr with
  | none =>
    ({ ctx with
        vclAction := some .synth, synthStatus := some .serviceUnavailable
        synthBody := some (asBytes "No backend configured") },
      cache, [])
  | some addr =>
    let bereq := buildBereq ctx.request
    match env.execSubroutine tick .backendFetch (env.vclContext ctx .default bereq .default) with
    | some (.action .abandon, after) =>
      ({ ctx with
          request := after.req, vclAction := some .synth
          synthStatus := some .serviceUnavailable },
        cache, [.vcl .backendFetch (.action .abandon) after])
    | some (result, after) =>
      let r := askBackend env tick { ctx with request := after.req } cache addr after.bereq
      (r.1, r.2.1, .vcl .backendFetch result after :: r.2.2)
    | none => askBackend env tick ctx cache addr bereq

/-! ## Deliver -/

/-- The delivery filter and the end of `state_deliver`. -/
def finishDeliver (env : Env σ) (ctx : RequestContext) (response : HttpMessage)
    (respBody : Option (List UInt8)) : RequestContext :=
  match ctx.doGzip, respBody.bind env.compressGzip with
  | true, some compressed =>
    let response := response.setHeader "Content-Encoding" "gzip"
    { ctx with
      response := some (response.setHeader "Content-Length" (toString compressed.length))
      respBody := some compressed }
  | _, _ => { ctx with response := some response, respBody := respBody }

/-- `state_deliver`. A restart leaves the response unset. -/
def stateDeliver (env : Env σ) (tick : Nat) (ctx : RequestContext) : RequestContext × List Event :=
  let r := buildResponse ctx
  match env.execSubroutine tick .deliver
      { env.vclContextFull ctx r.1 (ctx.bereq.getD .default) (ctx.beresp.getD .default) with
        respBody := r.2, objHits := (ctx.obj.map ObjCore.hits).getD 0 } with
  | none => (finishDeliver env { ctx with respBody := none } r.1 r.2, [])
  | some (result, after) =>
    -- the subroutine edits the body in place; it cannot add or drop one
    let respBody := r.2.map fun b => after.respBody.getD b
    let ctx := { ctx with
      request := after.req, bereq := some after.bereq, beresp := some after.beresp
      vclAction := actionOr (some .deliver) result }
    if result = .action .restart then
      ({ ctx with respBody := respBody }, [.vcl .deliver result after])
    else
      (finishDeliver env { ctx with respBody := none } after.resp respBody,
        [.vcl .deliver result after])

/-! ## Synth -/

def synthStart (ctx : RequestContext) : HttpStatus := ctx.synthStatus.getD .ok

def stateSynth (env : Env σ) (tick : Nat) (ctx : RequestContext) : RequestContext × List Event :=
  let status := synthStart ctx
  let response := (HttpMessage.newResponse status .http11).setHeader "X-Cache" "SYNTH"
  let body := ctx.synthBody.getD (asBytes status.reason)
  let ctx := { ctx with synthBody := none }
  match env.execSubroutine tick .synth
      { env.vclContext ctx response .default .default with
        synthBody := some (env.fromUtf8Lossy body) } with
  | none =>
    ({ ctx with
        response := some (response.setHeader "Content-Length" (toString body.length))
        respBody := some body }, [])
  | some (result, after) =>
    let ctx := { ctx with request := after.req }
    if result = .action .restart ∧ ctx.restarts < ctx.maxRestarts then
      ({ ctx with restarts := ctx.restarts + 1, state := .recv, vclAction := none },
        [.vcl .synth result after])
    else
      let finalBody := (after.synthBody.map asBytes).getD body
      ({ ctx with
          response := some (after.resp.setHeader "Content-Length" (toString finalBody.length))
          respBody := some finalBody }, [.vcl .synth result after])

/-! ## The loop -/

/-- One round of the loop of `handle_request`. -/
def loopStep (env : Env σ) (s : Session σ) : List Event × Session σ :=
  match s.ctx.state with
  | .recv =>
    let r := stateRecv env s.tick s.ctx
    (r.2, { s with ctx := RequestFsm.step r.1, tick := s.tick + 1 })
  | .lookup =>
    let r := stateLookup env s.tick s.ctx s.cache
    (r.2.2, ⟨RequestFsm.step r.1, r.2.1, s.tick + 1⟩)
  | .pass =>
    let r := runVclPass env s.tick { s.ctx with isPass := true }
    (r.2, { s with ctx := RequestFsm.step r.1, tick := s.tick + 1 })
  | .miss =>
    let r := runVclMiss env s.tick s.ctx
    (r.2, { s with ctx := RequestFsm.step r.1, tick := s.tick + 1 })
  | .pipe => ([], { s with ctx := RequestFsm.step s.ctx, tick := s.tick + 1 })
  | .fetch =>
    let r := stateFetch env s.tick s.ctx s.cache
    let ctx :=
      if r.1.vclAction = some .synth then { r.1 with state := .synth }
      else RequestFsm.step r.1
    (r.2.2, ⟨ctx, r.2.1, s.tick + 1⟩)
  | .deliver =>
    let r := stateDeliver env s.tick s.ctx
    let ctx :=
      if r.1.vclAction = some .restart ∧ r.1.restarts < r.1.maxRestarts then
        { r.1 with restarts := r.1.restarts + 1, state := .recv, vclAction := none }
      else RequestFsm.step r.1
    (r.2, { s with ctx := ctx, tick := s.tick + 1 })
  | .synth =>
    let r := stateSynth env s.tick s.ctx
    (r.2, { s with ctx := { r.1 with state := .done }, tick := s.tick + 1 })
  | .done => ([], s)

def events (env : Env σ) (s : Session σ) : List Event := (loopStep env s).1

def next (env : Env σ) (s : Session σ) : Session σ := (loopStep env s).2

def run (env : Env σ) (s : Session σ) (n : Nat) : Session σ := (next env)^[n] s

/-- What the request is answered with, once done. -/
def Session.result (s : Session σ) : HttpMessage × Option (List UInt8) :=
  (s.ctx.response.getD (.newResponse .internalServerError .http11), s.ctx.respBody)

/-- `handle_request`, if it is done after `fuel` rounds. -/
def handleRequest (env : Env σ) (fuel : Nat) (s : Session σ) :
    Option ((HttpMessage × Option (List UInt8)) × Session σ) :=
  if (run env s fuel).ctx.state = .done then
    some ((run env s fuel).result, run env s fuel)
  else none

end VarahaCache
