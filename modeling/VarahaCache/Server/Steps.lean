import VarahaCache.Server.Runtime
import VarahaCache.Lib.Machine

/-!
# What one round of the request loop does

One lemma for each state, saying everything a round in that state can do:
which fields of the request it writes, where it goes next and which calls
it makes. The results about whole runs cite these and never unfold the
states. `successors` is the transition graph they add up to.
-/

namespace VarahaCache

open List

variable {σ : Type} {env : Env σ}

/-! ## The states' own work -/

theorem stateRecv_spec (env : Env σ) (tick : Nat) (ctx : RequestContext) :
    ∃ request action status body events,
      stateRecv env tick ctx =
        ({ ctx with
            request := request, vclAction := action, synthStatus := status, synthBody := body },
          events) ∧
      (action ≠ some .synth → status = ctx.synthStatus) ∧
      (∀ e ∈ events, ∃ r after, e = .vcl .recv r after ∧
        (r = .action .synth →
          action = some .synth ∧ status = after.synthStatus.map HttpStatus.mk)) ∧
      (action = some .pipe → ∃ after, .vcl .recv (.action .pipe) after ∈ events) := by
  unfold stateRecv
  cases env.execSubroutine tick .recv _ with
  | none => exact ⟨_, _, _, _, _, rfl, fun _ => rfl, by simp, by simp⟩
  | some call =>
    obtain ⟨result, after⟩ := call
    cases result with
    | action a =>
      by_cases ha : a = .synth
      · subst ha
        exact ⟨_, _, _, _, _, rfl, fun h => absurd rfl h, by simp [convertAction],
          by simp [convertAction]⟩
      simp only [if_neg ha]
      refine ⟨_, _, _, _, _, rfl, fun _ => rfl, by simp [ha], ?_⟩
      intro hpipe
      obtain rfl : a = .pipe := by simpa using hpipe
      exact ⟨after, by simp⟩
    | fallthrough => exact ⟨_, _, _, _, _, rfl, fun _ => rfl, by simp, by simp⟩
    | error e => exact ⟨_, _, _, _, _, rfl, by simp, by simp, by simp⟩

/-- The object a lookup found, or the one the request held before. -/
def heldObject (held : Option ObjCore) : CacheLookupResult → Option ObjCore
  | .hit oc => some oc
  | .grace oc => some oc
  | _ => held

theorem answerLookup_spec (env : Env σ) (tick : Nat) (ctx : RequestContext)
    (result : CacheLookupResult) :
    ∃ request action events,
      answerLookup env tick ctx result =
        ({ ctx with
            obj := heldObject ctx.obj result, request := request, vclAction := action },
          events) ∧
      (∀ e ∈ events, ∃ sub r after, e = .vcl sub r after ∧ (sub = .hit ∨ sub = .miss) ∧
        (r = .action .synth → action = some .synth)) ∧
      (action = some .restart → ∃ sub after, .vcl sub (.action .restart) after ∈ events) := by
  have hrestart : ∀ sub fallback r after, fallback ≠ some .restart →
      actionOr fallback r = some .restart →
      ∃ sub' after', Event.vcl sub' (.action .restart) after' ∈ [Event.vcl sub r after] := by
    intro sub fallback r after hne h
    cases r with
    | action a =>
      simp only [actionOr, Option.some.injEq, convertAction_eq_restart] at h
      subst h
      exact ⟨sub, after, by simp⟩
    | fallthrough | error => exact absurd h hne
  unfold answerLookup
  cases result with
  | hit oc =>
    dsimp only
    cases env.execSubroutine tick .hit _ with
    | none => exact ⟨_, _, _, rfl, by simp, by simp⟩
    | some call =>
      obtain ⟨r, after⟩ := call
      refine ⟨_, _, _, rfl, ?_, hrestart _ _ _ _ (by simp)⟩
      simp only [mem_singleton, forall_eq]
      exact ⟨_, _, _, rfl, .inl rfl, fun h => by rw [h]; rfl⟩
  | grace | hitForPass | busy => exact ⟨_, _, _, rfl, by simp, by simp⟩
  | miss =>
    cases env.execSubroutine tick .miss _ with
    | none => exact ⟨_, _, _, rfl, by simp, by simp⟩
    | some call =>
      obtain ⟨r, after⟩ := call
      refine ⟨_, _, _, rfl, ?_, hrestart _ _ _ _ (by simp)⟩
      simp only [mem_singleton, forall_eq]
      exact ⟨_, _, _, rfl, .inr rfl, fun h => by rw [h]; rfl⟩

theorem stateLookup_spec (env : Env σ) (tick : Nat) (ctx : RequestContext) (cache : CacheEngine σ) :
    ∃ request action calls,
      stateLookup env tick ctx cache =
        ({ ctx with
            digest := some (env.requestDigest ctx.request)
            obj := heldObject ctx.obj
              (cache.lookup (env.now tick) (env.requestDigest ctx.request) none).1
            request := request, vclAction := action },
          (cache.lookup (env.now tick) (env.requestDigest ctx.request) none).2,
          .lookup (env.requestDigest ctx.request)
            (cache.lookup (env.now tick) (env.requestDigest ctx.request) none).1 :: calls) ∧
      (∀ e ∈ calls, ∃ sub r after, e = .vcl sub r after ∧ (sub = .hit ∨ sub = .miss) ∧
        (r = .action .synth → action = some .synth)) ∧
      (action = some .restart → ∃ sub after, .vcl sub (.action .restart) after ∈ calls) := by
  obtain ⟨request, action, calls, heq, hcalls⟩ := answerLookup_spec env tick
    { ctx with digest := some (env.requestDigest ctx.request) }
    (cache.lookup (env.now tick) (env.requestDigest ctx.request) none).1
  refine ⟨request, action, calls, ?_, hcalls⟩
  unfold stateLookup
  dsimp only
  rw [heq]

theorem runVclSub_spec (sub : VclSub) (env : Env σ) (tick : Nat) (ctx : RequestContext) :
    ∃ request action events,
      runVclSub sub env tick ctx =
        ({ ctx with request := request, vclAction := action }, events) ∧
      (∀ e ∈ events, ∃ r after, e = .vcl sub r after ∧
        (r = .action .synth → action = some .synth)) := by
  unfold runVclSub
  cases env.execSubroutine tick sub _ with
  | none => exact ⟨_, _, _, rfl, by simp⟩
  | some call =>
    obtain ⟨r, after⟩ := call
    refine ⟨_, _, _, rfl, ?_⟩
    simp only [mem_singleton, forall_eq]
    exact ⟨_, _, rfl, fun h => by rw [h]; rfl⟩

/-- The storing decision of a fetch, as a condition on what it looks at. -/
def Stores (ctx : RequestContext) (beresp : HttpMessage) (body : List UInt8) (digest : Digest)
    (respBody : Option (List UInt8)) : Prop :=
  respBody = some body ∧ ctx.digest = some digest ∧ ctx.isPass = false ∧
    ctx.uncacheable = false ∧ beresp.status = .ok

theorem storeResponse_spec (env : Env σ) (tick : Nat) (ctx : RequestContext)
    (cache : CacheEngine σ) (beresp : HttpMessage) (respBody : Option (List UInt8)) :
    (storeResponse env tick ctx cache beresp respBody = (cache, []) ∧
      ∀ body digest, ¬ Stores ctx beresp body digest respBody) ∨
    ∃ body digest, Stores ctx beresp body digest respBody ∧
      let r := cache.insert env.stevedore (env.now tick) digest body
        ⟨ctx.berespTtl.getD 120, ctx.berespGrace.getD 10, ctx.berespKeep.getD 0⟩ none
      storeResponse env tick ctx cache beresp respBody = (r.2, [.insert digest body r.1.2]) := by
  unfold storeResponse Stores
  cases respBody with
  | none => exact .inl ⟨rfl, by simp⟩
  | some body =>
    cases hd : ctx.digest with
    | none => exact .inl ⟨rfl, by simp⟩
    | some digest =>
      by_cases hstore : (!ctx.isPass && !ctx.uncacheable && beresp.status == .ok) = true
      · have hparts : ctx.isPass = false ∧ ctx.uncacheable = false ∧ beresp.status = .ok := by
          simpa [and_assoc] using hstore
        exact .inr ⟨body, digest, ⟨rfl, rfl, hparts⟩, if_pos hstore⟩
      refine .inl ⟨if_neg hstore, ?_⟩
      rintro _ _ ⟨_, _, hpass, hunc, hok⟩
      simp [hpass, hunc, hok] at hstore

theorem receiveResponse_spec (env : Env σ) (tick : Nat) (ctx : RequestContext)
    (cache : CacheEngine σ) (bereq beresp : HttpMessage) (body : Option (List UInt8)) :
    (∃ after, receiveResponse env tick ctx cache bereq beresp body =
      ({ ctx with
          request := after.req, vclAction := some .synth
          synthStatus := some .serviceUnavailable },
        cache, [.vcl .backendResponse (.action .abandon) after])) ∨
    ∃ request doGzip doGunzip uncacheable ttl grace keep beresp' respBody calls,
      let ctx' := { ctx with
        request := request, doGzip := doGzip, doGunzip := doGunzip, uncacheable := uncacheable
        berespTtl := ttl, berespGrace := grace, berespKeep := keep }
      let stored := storeResponse env tick ctx' cache beresp' body
      receiveResponse env tick ctx cache bereq beresp body =
        ({ ctx' with beresp := some beresp', respBody := respBody }, stored.1,
          calls ++ stored.2) ∧
      (∀ e ∈ calls, ∃ r after, e = .vcl .backendResponse r after ∧ r ≠ .action .abandon ∧
        after.beresp = beresp' ∧
        (r = .action .pass ∨ after.uncacheable = true → uncacheable = true)) := by
  unfold receiveResponse
  split
  · rename_i after _
    exact .inl ⟨after, rfl⟩
  rename_i hno
  refine .inr ?_
  cases hcall : env.execSubroutine tick .backendResponse
      (env.vclContext ctx .default bereq beresp) with
  | none => exact ⟨_, _, _, _, _, _, _, _, _, [], rfl, by simp⟩
  | some call =>
    obtain ⟨r, after⟩ := call
    have hr : r ≠ .action .abandon := by
      intro h
      exact hno after (by rw [hcall, h])
    refine ⟨_, _, _, _, _, _, _, _, _, [.vcl .backendResponse r after], rfl, ?_⟩
    simp only [mem_singleton, forall_eq]
    refine ⟨r, after, rfl, hr, rfl, ?_⟩
    intro hjudged
    rcases hjudged with h | h
    · simp [h]
    · simp [h]

structure FetchKeeps (ctx ctx' : RequestContext) : Prop where
  state : ctx'.state = ctx.state
  restarts : ctx'.restarts = ctx.restarts
  maxRestarts : ctx'.maxRestarts = ctx.maxRestarts
  isPass : ctx'.isPass = ctx.isPass
  obj : ctx'.obj = ctx.obj
  digest : ctx'.digest = ctx.digest
  response : ctx'.response = ctx.response

/-- A synthetic response of its own status, or a backend response, the last
action still standing. -/
def FetchLeads (ctx ctx' : RequestContext) : Prop :=
  ctx'.vclAction = some .synth ∨
    (ctx'.vclAction = ctx.vclAction ∧ ctx'.synthStatus = ctx.synthStatus ∧
      ∃ beresp, ctx'.beresp = some beresp)

theorem storeResponse_events {env : Env σ} {tick : Nat} {ctx : RequestContext}
    {cache : CacheEngine σ} {beresp : HttpMessage} {respBody : Option (List UInt8)} {e : Event}
    (h : e ∈ (storeResponse env tick ctx cache beresp respBody).2) :
    ∃ digest body result, e = .insert digest body result := by
  rcases storeResponse_spec env tick ctx cache beresp respBody with
    ⟨heq, _⟩ | ⟨body, digest, _, heq⟩
  · simp [heq] at h
  · rw [heq, mem_singleton] at h
    exact ⟨_, _, _, h⟩

theorem askBackend_spec (env : Env σ) (tick : Nat) (ctx : RequestContext)
    (cache : CacheEngine σ) (addr : SocketAddr) (bereq : HttpMessage) :
    let r := askBackend env tick ctx cache addr bereq
    FetchKeeps ctx r.1 ∧ FetchLeads ctx r.1 ∧ .backendRequest addr bereq ∈ r.2.2 ∧
      (∀ sub result after, .vcl sub result after ∈ r.2.2 → sub = .backendResponse) ∧
      (r.1.vclAction ≠ some .synth → ∃ beresp body, .backendResponse beresp body ∈ r.2.2) := by
  unfold askBackend
  dsimp only
  split
  · exact ⟨⟨rfl, rfl, rfl, rfl, rfl, rfl, rfl⟩, .inl rfl, by simp, by simp, by simp⟩
  rename_i beresp body _
  rcases receiveResponse_spec env tick { ctx with bereq := some bereq } cache bereq beresp body
    with ⟨after, heq⟩ | ⟨_, _, _, _, _, _, _, beresp', _, calls, heq, hcalls⟩
  · rw [heq]
    refine ⟨⟨rfl, rfl, rfl, rfl, rfl, rfl, rfl⟩, .inl rfl, by simp, ?_, by simp⟩
    intro sub result after' h
    simp only [mem_cons, reduceCtorEq, Event.vcl.injEq, not_mem_nil, or_false, false_or] at h
    exact h.1
  rw [heq]
  refine ⟨⟨rfl, rfl, rfl, rfl, rfl, rfl, rfl⟩, .inr ⟨rfl, rfl, beresp', rfl⟩, by simp, ?_,
    fun _ => ⟨beresp, body, by simp⟩⟩
  intro sub result after' h
  simp only [mem_cons, reduceCtorEq, mem_append, false_or] at h
  rcases h with h | h
  · obtain ⟨_, _, he, _⟩ := hcalls _ h
    cases he
    rfl
  · obtain ⟨_, _, _, he⟩ := storeResponse_events h
    cases he

theorem stateFetch_spec (env : Env σ) (tick : Nat) (ctx : RequestContext) (cache : CacheEngine σ) :
    (∃ request synthBody events,
      stateFetch env tick ctx cache =
        ({ ctx with
            request := request, vclAction := some .synth
            synthStatus := some .serviceUnavailable, synthBody := synthBody },
          cache, events) ∧
      ((env.backendAddr = none ∧ events = []) ∨
        ∃ after, events = [.vcl .backendFetch (.action .abandon) after])) ∨
    ∃ addr bereq request calls,
      let r := askBackend env tick { ctx with request := request } cache addr bereq
      stateFetch env tick ctx cache = (r.1, r.2.1, calls ++ r.2.2) ∧
      env.backendAddr = some addr ∧
      ∀ e ∈ calls, ∃ r after, e = .vcl .backendFetch r after ∧ r ≠ .action .abandon := by
  unfold stateFetch
  cases haddr : env.backendAddr with
  | none => exact .inl ⟨_, _, _, rfl, .inl ⟨rfl, rfl⟩⟩
  | some addr =>
    dsimp only
    split
    · rename_i after _
      exact .inl ⟨_, _, _, rfl, .inr ⟨after, rfl⟩⟩
    · rename_i r after hne _
      refine .inr ⟨addr, after.bereq, after.req, [.vcl .backendFetch r after], rfl, rfl, ?_⟩
      simp only [mem_singleton, forall_eq]
      exact ⟨r, after, rfl, fun h => hne h⟩
    · exact .inr ⟨addr, _, ctx.request, [], rfl, rfl, by simp⟩

theorem stateFetch_keeps (env : Env σ) (tick : Nat) (ctx : RequestContext) (cache : CacheEngine σ) :
    let r := stateFetch env tick ctx cache
    FetchKeeps ctx r.1 ∧ FetchLeads ctx r.1 ∧
      (∀ sub result after, .vcl sub result after ∈ r.2.2 →
        sub = .backendFetch ∨ sub = .backendResponse) ∧
      (r.1.vclAction ≠ some .synth → ∃ beresp body, .backendResponse beresp body ∈ r.2.2) := by
  rcases stateFetch_spec env tick ctx cache with
    ⟨_, _, _, heq, hevents⟩ | ⟨addr, bereq, request, calls, heq, _, hcalls⟩
  · rw [heq]
    refine ⟨⟨rfl, rfl, rfl, rfl, rfl, rfl, rfl⟩, .inl rfl, ?_, by simp⟩
    intro sub result after h
    rcases hevents with ⟨_, rfl⟩ | ⟨_, rfl⟩
    · simp at h
    rw [mem_singleton] at h
    cases h
    exact .inl rfl
  obtain ⟨hkeeps, hleads, _, hsubs, hresponds⟩ :=
    askBackend_spec env tick { ctx with request := request } cache addr bereq
  rw [heq]
  refine ⟨⟨hkeeps.state, hkeeps.restarts, hkeeps.maxRestarts, hkeeps.isPass, hkeeps.obj,
    hkeeps.digest, hkeeps.response⟩, hleads, ?_, ?_⟩
  · intro sub result after h
    rcases mem_append.mp h with h | h
    · obtain ⟨_, _, he, _⟩ := hcalls _ h
      cases he
      exact .inl rfl
    · exact .inr (hsubs _ _ _ h)
  · intro hne
    obtain ⟨beresp, body, h⟩ := hresponds hne
    exact ⟨beresp, body, mem_append_right _ h⟩

theorem finishDeliver_spec (env : Env σ) (ctx : RequestContext) (response : HttpMessage)
    (respBody : Option (List UInt8)) :
    ∃ response' respBody', finishDeliver env ctx response respBody =
      { ctx with response := some response', respBody := respBody' } := by
  unfold finishDeliver
  split
  · exact ⟨_, _, rfl⟩
  · exact ⟨_, _, rfl⟩

theorem stateDeliver_spec (env : Env σ) (tick : Nat) (ctx : RequestContext) :
    ∃ request response action bereq beresp respBody events,
      stateDeliver env tick ctx =
        ({ ctx with
            request := request, response := response, vclAction := action, bereq := bereq
            beresp := beresp, respBody := respBody }, events) ∧
      (∀ e ∈ events, ∃ r after, e = .vcl .deliver r after) ∧
      ((response = ctx.response ∧ action = some .restart ∧
          ∃ after, .vcl .deliver (.action .restart) after ∈ events) ∨
        (response ≠ none ∧ (∀ after, .vcl .deliver (.action .restart) after ∉ events) ∧
          (action = some .restart → env.vcl = none ∧ ctx.vclAction = some .restart))) := by
  unfold stateDeliver
  dsimp only
  cases hcall : env.execSubroutine tick .deliver _ with
  | none =>
    have hvcl : env.vcl = none := by simpa [Env.execSubroutine] using hcall
    obtain ⟨response, respBody, hfin⟩ := finishDeliver_spec env { ctx with respBody := none }
      (buildResponse ctx).1 (buildResponse ctx).2
    rw [hfin]
    exact ⟨_, _, _, _, _, _, _, rfl, by simp, .inr ⟨by simp, by simp, fun h => ⟨hvcl, h⟩⟩⟩
  | some call =>
    obtain ⟨result, after⟩ := call
    dsimp only
    by_cases hrestart : result = .action .restart
    · rw [if_pos hrestart]
      exact ⟨_, _, _, _, _, _, _, rfl, by simp,
        .inl ⟨rfl, by rw [hrestart]; rfl, after, by simp [hrestart]⟩⟩
    rw [if_neg hrestart]
    obtain ⟨response, respBody, hfin⟩ := finishDeliver_spec env
      { ctx with
        request := after.req, bereq := some after.bereq, beresp := some after.beresp
        vclAction := actionOr (some .deliver) result, respBody := none }
      after.resp ((buildResponse ctx).2.map fun b => after.respBody.getD b)
    rw [hfin]
    refine ⟨_, _, _, _, _, _, _, rfl, by simp, .inr ⟨by simp, ?_, ?_⟩⟩
    · simp [Ne.symm hrestart]
    · intro haction
      cases result <;> simp_all [actionOr]

/-- All that is left of a synth's restart is the counter: the loop goes on to
`Done`. -/
theorem stateSynth_spec (env : Env σ) (tick : Nat) (ctx : RequestContext) :
    ∃ request response action restarts respBody state events,
      stateSynth env tick ctx =
        ({ ctx with
            request := request, response := response, vclAction := action
            restarts := restarts, synthBody := none, respBody := respBody
            state := state }, events) ∧
      (restarts = ctx.restarts ∨ (restarts = ctx.restarts + 1 ∧ ctx.restarts < ctx.maxRestarts)) ∧
      (∀ e ∈ events, ∃ r after, e = .vcl .synth r after) ∧
      ((response = ctx.response ∧ ctx.restarts < ctx.maxRestarts ∧
          ∃ after, .vcl .synth (.action .restart) after ∈ events) ∨
        (response ≠ none ∧ (ctx.restarts < ctx.maxRestarts →
          ∀ after, .vcl .synth (.action .restart) after ∉ events))) := by
  unfold stateSynth
  dsimp only
  cases env.execSubroutine tick .synth _ with
  | none => exact ⟨_, _, _, _, _, _, _, rfl, .inl rfl, by simp, .inr ⟨by simp, by simp⟩⟩
  | some call =>
    obtain ⟨result, after⟩ := call
    dsimp only
    by_cases hrestart : result = .action .restart ∧ ctx.restarts < ctx.maxRestarts
    · rw [if_pos hrestart]
      exact ⟨_, _, _, _, _, _, _, rfl, .inr ⟨rfl, hrestart.2⟩, by simp,
        .inl ⟨rfl, hrestart.2, after, by simp [hrestart.1]⟩⟩
    rw [if_neg hrestart]
    refine ⟨_, _, _, _, _, _, _, rfl, .inl rfl, by simp, .inr ⟨by simp, ?_⟩⟩
    intro hlt after' hcall
    simp only [mem_singleton, Event.vcl.injEq, true_and] at hcall
    exact hrestart ⟨hcall.1.symm, hlt⟩

/-! ## Without VCL -/

section NoVcl

variable (hvcl : env.vcl = none)
include hvcl

variable (tick : Nat) (ctx : RequestContext)

theorem execSubroutine_noVcl (sub : VclSub) (vclCtx : VclContext) :
    env.execSubroutine tick sub vclCtx = none := by
  simp [Env.execSubroutine, hvcl]

theorem stateRecv_noVcl :
    stateRecv env tick ctx = ({ ctx with vclAction := none }, []) := by
  rw [stateRecv, execSubroutine_noVcl hvcl]

theorem runVclSub_noVcl (sub : VclSub) (tick : Nat) (ctx : RequestContext) :
    runVclSub sub env tick ctx = (ctx, []) := by
  rw [runVclSub, execSubroutine_noVcl hvcl]

theorem answerLookup_noVcl (result : CacheLookupResult) :
    answerLookup env tick ctx result =
      ({ ctx with
          obj := heldObject ctx.obj result
          vclAction := match result with
            | .hit _ => some .deliver
            | .grace _ => some .deliver
            | .hitForPass => some .pass
            | .busy => none
            | .miss => none }, []) := by
  cases result <;> simp [answerLookup, execSubroutine_noVcl hvcl, heldObject]

theorem stateSynth_noVcl_vclAction :
    (stateSynth env tick ctx).1.vclAction = ctx.vclAction := by
  simp [stateSynth, execSubroutine_noVcl hvcl]

theorem stateDeliver_noVcl :
    stateDeliver env tick ctx =
      (finishDeliver env { ctx with respBody := none } (buildResponse ctx).1
        (buildResponse ctx).2, []) := by
  simp [stateDeliver, execSubroutine_noVcl hvcl]

end NoVcl

/-! ## The rounds of the loop -/

variable {s : Session σ}

theorem loopStep_recv (env : Env σ) (h : s.ctx.state = .recv) :
    loopStep env s = ((stateRecv env s.tick s.ctx).2,
      ⟨RequestFsm.step (stateRecv env s.tick s.ctx).1, s.cache, s.tick + 1⟩) := by
  unfold loopStep
  rw [h]

theorem loopStep_lookup (env : Env σ) (h : s.ctx.state = .lookup) :
    loopStep env s = ((stateLookup env s.tick s.ctx s.cache).2.2,
      ⟨RequestFsm.step (stateLookup env s.tick s.ctx s.cache).1,
        (stateLookup env s.tick s.ctx s.cache).2.1, s.tick + 1⟩) := by
  unfold loopStep
  rw [h]

theorem next_recv (env : Env σ) (h : s.ctx.state = .recv) : ∃ request action status body state,
      next env s = ⟨{ s.ctx with
        state := state, request := request, vclAction := action, synthStatus := status
        synthBody := body }, s.cache, s.tick + 1⟩ ∧
      (state = .lookup ∨ state = .pass ∨ state = .pipe ∨ state = .synth) ∧
      (state ≠ .synth → status = s.ctx.synthStatus) ∧
      (∀ e ∈ events env s, ∃ r after, e = .vcl .recv r after ∧
        (r = .action .synth →
          state = .synth ∧ status = after.synthStatus.map HttpStatus.mk)) ∧
      (state = .pipe → ∃ after, .vcl .recv (.action .pipe) after ∈ events env s) := by
  obtain ⟨request, action, status, body, evs, heq, hstatus, hcalls, hpipe⟩ :=
    stateRecv_spec env s.tick s.ctx
  have hstep := loopStep_recv env h
  rw [heq, RequestFsm.step_recv (by exact h)] at hstep
  refine ⟨request, action, status, body, _, congrArg Prod.snd hstep,
    RequestFsm.handleRecv_cases _, ?_, ?_, ?_⟩
  · intro hne
    apply hstatus
    rintro rfl
    exact hne rfl
  · intro e he
    rw [events, hstep] at he
    obtain ⟨r, after, rfl, hsynth⟩ := hcalls e he
    refine ⟨r, after, rfl, fun hr => ?_⟩
    obtain ⟨rfl, hst⟩ := hsynth hr
    exact ⟨rfl, hst⟩
  · intro hstate
    rw [events, hstep]
    exact hpipe (RequestFsm.handleRecv_eq_pipe hstate)

/-- The cache's answer to a request in `Lookup`, and the cache after it. -/
def cacheLookup (env : Env σ) (s : Session σ) : CacheLookupResult × CacheEngine σ :=
  s.cache.lookup (env.now s.tick) (env.requestDigest s.ctx.request) none

theorem next_lookup (env : Env σ) (h : s.ctx.state = .lookup) : ∃ request action state calls,
      next env s = ⟨{ s.ctx with
        state := state, digest := some (env.requestDigest s.ctx.request)
        obj := heldObject s.ctx.obj (cacheLookup env s).1, request := request
        vclAction := action }, (cacheLookup env s).2, s.tick + 1⟩ ∧
      events env s =
        .lookup (env.requestDigest s.ctx.request) (cacheLookup env s).1 :: calls ∧
      (state = .deliver ∨ state = .pass ∨ state = .miss ∨ state = .synth ∨
        (state = .recv ∧ ∃ sub after, .vcl sub (.action .restart) after ∈ calls)) ∧
      ∀ e ∈ calls, ∃ sub r after, e = .vcl sub r after ∧ (sub = .hit ∨ sub = .miss) ∧
        (r = .action .synth → state = .synth) := by
  obtain ⟨request, action, calls, heq, hcalls, hrestart⟩ :=
    stateLookup_spec env s.tick s.ctx s.cache
  have hstep := loopStep_lookup env h
  rw [heq, RequestFsm.step_lookup (by exact h)] at hstep
  refine ⟨request, action, _, calls, congrArg Prod.snd hstep, congrArg Prod.fst hstep, ?_, ?_⟩
  · refine (RequestFsm.handleLookup_cases _).imp_right (.imp_right (.imp_right (.imp_right ?_)))
    exact And.imp_right hrestart
  intro e he
  obtain ⟨sub, r, after, rfl, hsub, hsynth⟩ := hcalls e he
  refine ⟨sub, r, after, rfl, hsub, fun hr => ?_⟩
  rw [hsynth hr]
  rfl

theorem next_toFetch (env : Env σ) (h : s.ctx.state = .pass ∨ s.ctx.state = .miss) :
    ∃ sub request action,
      next env s = ⟨{ s.ctx with
        state := .fetch, isPass := s.ctx.isPass || s.ctx.state = .pass
        request := request, vclAction := action }, s.cache, s.tick + 1⟩ ∧
      sub ≠ .backendResponse ∧
      ∀ e ∈ events env s, ∃ r after, e = .vcl sub r after ∧
        (r = .action .synth → action = some .synth) := by
  rw [events, next]
  rcases h with h | h
  · obtain ⟨request, action, evs, heq, hcalls⟩ :=
      runVclSub_spec .pass env s.tick { s.ctx with isPass := true }
    have hpass : runVclPass env s.tick { s.ctx with isPass := true } = _ := heq
    refine ⟨.pass, request, action, ?_, by simp, ?_⟩
    all_goals simp only [loopStep, h]
    all_goals simp only [h] at hpass
    all_goals rw [hpass]
    · simp [RequestFsm.step]
    · exact hcalls
  · obtain ⟨request, action, evs, heq, hcalls⟩ := runVclSub_spec .miss env s.tick s.ctx
    have hmiss : runVclMiss env s.tick s.ctx = _ := heq
    refine ⟨.miss, request, action, ?_, by simp, ?_⟩
    all_goals simp only [loopStep, h, hmiss, RequestFsm.step]
    · simp
    · exact hcalls

theorem next_pipe (h : s.ctx.state = .pipe) :
    next env s = ⟨{ s.ctx with state := .done }, s.cache, s.tick + 1⟩ ∧ events env s = [] := by
  simp [next, events, loopStep, h, RequestFsm.step]

theorem events_fetch (h : s.ctx.state = .fetch) :
    events env s = (stateFetch env s.tick s.ctx s.cache).2.2 := by
  simp only [events, loopStep, h]

theorem next_fetch (h : s.ctx.state = .fetch) : let r := stateFetch env s.tick s.ctx s.cache
    next env s = ⟨{ r.1 with
      state := if r.1.vclAction = some .synth then .synth else .deliver },
      r.2.1, s.tick + 1⟩ := by
  have hfetch := (stateFetch_keeps env s.tick s.ctx s.cache).1.state.trans h
  simp only [next, loopStep, h]
  by_cases hsynth : (stateFetch env s.tick s.ctx s.cache).1.vclAction = some .synth
  · simp only [if_pos hsynth]
  · simp only [if_neg hsynth, RequestFsm.step_fetch hfetch]

theorem next_deliver (env : Env σ) (h : s.ctx.state = .deliver) :
    ∃ request response action bereq beresp respBody state restarts,
      next env s = ⟨{ s.ctx with
        state := state, restarts := restarts, request := request, response := response
        vclAction := action, bereq := bereq, beresp := beresp, respBody := respBody },
        s.cache, s.tick + 1⟩ ∧
      ((state = .done ∧ restarts = s.ctx.restarts) ∨
        (state = .recv ∧ restarts = s.ctx.restarts + 1 ∧ s.ctx.restarts < s.ctx.maxRestarts)) ∧
      (∀ e ∈ events env s, ∃ r after, e = .vcl .deliver r after) ∧
      ((response = s.ctx.response ∧
          (s.ctx.restarts < s.ctx.maxRestarts → state = .recv) ∧
          ∃ after, .vcl .deliver (.action .restart) after ∈ events env s) ∨
        (response ≠ none ∧
          (∀ after, .vcl .deliver (.action .restart) after ∉ events env s) ∧
          (state = .recv → env.vcl = none ∧ s.ctx.vclAction = some .restart))) := by
  obtain ⟨request, response, action, bereq, beresp, respBody, evs, heq, hcalls, hresp⟩ :=
    stateDeliver_spec env s.tick s.ctx
  have hevents : events env s = evs := by simp only [events, loopStep, h, heq]
  rw [hevents]
  by_cases hrestart : action = some .restart ∧ s.ctx.restarts < s.ctx.maxRestarts
  · refine ⟨request, response, none, bereq, beresp, respBody, .recv, s.ctx.restarts + 1, ?_,
      .inr ⟨rfl, rfl, hrestart.2⟩, hcalls, ?_⟩
    · simp only [next, loopStep, h, heq, if_pos hrestart]
    · exact hresp.imp (fun ⟨hsame, _, hcall⟩ => ⟨hsame, fun _ => rfl, hcall⟩)
        fun ⟨hsome, hno, hstale⟩ => ⟨hsome, hno, fun _ => hstale hrestart.1⟩
  refine ⟨request, response, action, bereq, beresp, respBody, .done, s.ctx.restarts, ?_,
    .inl ⟨rfl, rfl⟩, hcalls, ?_⟩
  · simp only [next, loopStep, h, heq, if_neg hrestart, RequestFsm.step]
  exact hresp.imp
    (fun ⟨hsame, haction, hcall⟩ => ⟨hsame, fun hlt => absurd ⟨haction, hlt⟩ hrestart, hcall⟩)
    fun ⟨hsome, hno, _⟩ => ⟨hsome, hno, by simp⟩

theorem next_synth (env : Env σ) (h : s.ctx.state = .synth) :
    ∃ request response action restarts respBody,
      next env s = ⟨{ s.ctx with
        state := .done, restarts := restarts, request := request, response := response
        vclAction := action, synthBody := none, respBody := respBody }, s.cache, s.tick + 1⟩ ∧
      (restarts = s.ctx.restarts ∨
        (restarts = s.ctx.restarts + 1 ∧ s.ctx.restarts < s.ctx.maxRestarts)) ∧
      (∀ e ∈ events env s, ∃ r after, e = .vcl .synth r after) ∧
      ((response = s.ctx.response ∧ s.ctx.restarts < s.ctx.maxRestarts ∧
          ∃ after, .vcl .synth (.action .restart) after ∈ events env s) ∨
        (response ≠ none ∧ (s.ctx.restarts < s.ctx.maxRestarts →
          ∀ after, .vcl .synth (.action .restart) after ∉ events env s))) := by
  obtain ⟨request, response, action, restarts, respBody, state, evs, heq, hrestarts, hcalls,
    hresp⟩ := stateSynth_spec env s.tick s.ctx
  refine ⟨request, response, action, restarts, respBody, ?_, hrestarts, ?_⟩
  · simp only [next, loopStep, h, heq]
  have hevents : events env s = evs := by simp only [events, loopStep, h, heq]
  rw [hevents]
  exact ⟨hcalls, hresp⟩

theorem next_done (h : s.ctx.state = .done) : next env s = s ∧ events env s = [] := by
  simp [next, events, loopStep, h]

end VarahaCache
