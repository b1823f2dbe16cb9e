import VarahaCache.Server.Inserts

/-!
# Requests without VCL

With no VCL loaded a request takes one of two ways, whatever its method: the
lookup finds an object and the object is delivered, or it finds none, the
backend is asked and its answer is delivered, stored on the way if it is a
200 with a body. Both ways in closed form, step by step.
-/

namespace VarahaCache

open Text
open Session (start)

variable {σ : Type} {env : Env σ} {s : Session σ}

/-- The delivery of the request starts from a cached object. -/
def AnsweredFrom (env : Env σ) (s : Session σ) (oc : ObjCore) : Prop :=
  ∃ n, (run env s n).ctx.state = .deliver ∧ deliverSource (run env s n).ctx = .object oc

def lookupOf (env : Env σ) (cache : CacheEngine σ) (tick : ℕ) (request : HttpMessage) :
    CacheLookupResult × CacheEngine σ :=
  cache.lookup (env.now (tick + 1)) (env.requestDigest request) none

/-- A request whose lookup found nothing, about to fetch. -/
def missed (env : Env σ) (request : HttpMessage) (body : Option (List UInt8)) : RequestContext :=
  { RequestContext.new request with
    state := .fetch, body := body, digest := some (env.requestDigest request) }

/-- What a missed request gets from the backend, if there is one, in its
fourth step. -/
def fetchOf (env : Env σ) (tick : ℕ) (request : HttpMessage) :
    Option (Except String (HttpMessage × Option (List UInt8))) :=
  env.backendAddr.map fun addr => env.sendBackendRequest (tick + 3) addr (buildBereq request)

def synthAnswer (status : HttpStatus) (text : String) : HttpMessage × Option (List UInt8) :=
  (((HttpMessage.newResponse status .http11).setHeader "X-Cache" "SYNTH").setHeader "Content-Length"
    (toString (asBytes text).length), some (asBytes text))

theorem lookupOf_cases (env : Env σ) (cache : CacheEngine σ) (tick : ℕ) (request : HttpMessage) :
    (∃ oc, (lookupOf env cache tick request).1 = .hit oc ∨
        (lookupOf env cache tick request).1 = .grace oc) ∨
      (lookupOf env cache tick request).1 = .miss := by
  rw [lookupOf, CacheEngine.lookup_fst]
  rcases scanVariants_cases (env.now (tick + 1)) none
    (cache.variants (env.requestDigest request)) with ⟨oc, h⟩ | ⟨oc, h⟩ | h
  · exact .inl ⟨oc, .inl h⟩
  · exact .inl ⟨oc, .inr h⟩
  · exact .inr h

theorem requestDigest_congr (env : Env σ) {request request' : HttpMessage}
    (h : cacheKey request = cacheKey request') :
    env.requestDigest request = env.requestDigest request' := by
  rw [Env.requestDigest, Env.requestDigest, h]

theorem variants_lookupOf {cache : CacheEngine σ} {tick : ℕ} {request : HttpMessage}
    (h : (lookupOf env cache tick request).1 = .miss) :
    (lookupOf env cache tick request).2.variants (env.requestDigest request) = [] := by
  rw [lookupOf, CacheEngine.lookup_fst] at h
  rw [lookupOf, CacheEngine.variants_lookup, if_pos h]

/-- For a missed request a 200 with a body is inserted, with the default
lifetime and without Vary data. -/
theorem storeResponse_missed (env : Env σ) (tick : ℕ) (request : HttpMessage)
    (body : Option (List UInt8)) (cache : CacheEngine σ) (beresp : HttpMessage)
    (respBody : Option (List UInt8)) :
    ((beresp.status ≠ .ok ∨ respBody = none) ∧
      storeResponse env tick (missed env request body) cache beresp respBody = (cache, [])) ∨
    ∃ bytes, beresp.status = .ok ∧ respBody = some bytes ∧
      let r := cache.insert env.stevedore (env.now tick) (env.requestDigest request) bytes
        .default none
      storeResponse env tick (missed env request body) cache beresp respBody =
        (r.2, [.insert (env.requestDigest request) bytes r.1.2]) := by
  rcases storeResponse_spec env tick (missed env request body) cache beresp respBody with
    ⟨hstore, hno⟩ | ⟨bytes, digest, ⟨hbody, hdigest, _, _, hok⟩, hstore⟩
  · refine .inl ⟨?_, hstore⟩
    by_contra hnot
    push Not at hnot
    obtain ⟨bytes, hbody⟩ := Option.ne_none_iff_exists'.mp hnot.2
    exact hno bytes _ ⟨hbody, rfl, rfl, rfl, hnot.1⟩
  · cases hdigest
    exact .inr ⟨bytes, hok, hbody, hstore⟩

section NoVcl

variable (hvcl : env.vcl = none) {addr : SocketAddr} {beresp : HttpMessage}
  {respBody : Option (List UInt8)}
include hvcl

/-! ## The steps -/

theorem next_deliver_noVcl (hstate : s.ctx.state = .deliver)
    (haction : s.ctx.vclAction ≠ some .restart) :
    next env s = ⟨{ finishDeliver env { s.ctx with respBody := none } (buildResponse s.ctx).1
      (buildResponse s.ctx).2 with state := .done }, s.cache, s.tick + 1⟩ := by
  obtain ⟨response, respBody, hfin⟩ := finishDeliver_spec env { s.ctx with respBody := none }
    (buildResponse s.ctx).1 (buildResponse s.ctx).2
  have hdeliver : stateDeliver env s.tick s.ctx = _ := stateDeliver_noVcl hvcl s.tick s.ctx
  rw [hfin] at hdeliver ⊢
  simp [next, loopStep, hstate, hdeliver, RequestFsm.step, haction]

theorem receiveResponse_noVcl (tick : ℕ) (ctx : RequestContext) (cache : CacheEngine σ)
    (bereq beresp : HttpMessage) (respBody : Option (List UInt8)) :
    let ctx' := { ctx with
      doGzip := false, doGunzip := false, uncacheable := false
      berespTtl := none, berespGrace := none, berespKeep := none }
    let stored := storeResponse env tick ctx' cache beresp respBody
    receiveResponse env tick ctx cache bereq beresp respBody =
      ({ ctx' with beresp := some beresp, respBody := respBody }, stored.1, stored.2) := by
  unfold receiveResponse
  rw [execSubroutine_noVcl hvcl]
  rfl

theorem stateFetch_noVcl (haddr : env.backendAddr = some addr) (tick : ℕ)
    (ctx : RequestContext) (cache : CacheEngine σ) :
    stateFetch env tick ctx cache =
      askBackend env tick ctx cache addr (buildBereq ctx.request) := by
  simp only [stateFetch, haddr, execSubroutine_noVcl hvcl]

theorem stateFetch_response_noVcl (tick : ℕ) (ctx : RequestContext) (cache : CacheEngine σ)
    (h : .backendResponse beresp respBody ∈ (stateFetch env tick ctx cache).2.2) :
    ∃ addr bereq,
      let ctx' := { ctx with
        bereq := some bereq, doGzip := false, doGunzip := false, uncacheable := false
        berespTtl := none, berespGrace := none, berespKeep := none }
      let stored := storeResponse env tick ctx' cache beresp respBody
      stateFetch env tick ctx cache =
        ({ ctx' with beresp := some beresp, respBody := respBody }, stored.1,
          .backendRequest addr bereq :: .backendResponse beresp respBody :: stored.2) := by
  cases haddr : env.backendAddr with
  | none => simp [stateFetch, haddr] at h
  | some addr =>
    refine ⟨addr, buildBereq ctx.request, ?_⟩
    rw [stateFetch_noVcl hvcl haddr, askBackend] at h ⊢
    cases hsend : env.sendBackendRequest tick addr (buildBereq ctx.request) with
    | error e => simp [hsend] at h
    | ok answer =>
      obtain ⟨beresp', respBody'⟩ := answer
      simp only [hsend, receiveResponse_noVcl hvcl] at h ⊢
      simp only [List.mem_cons, reduceCtorEq, false_or, Event.backendResponse.injEq] at h
      rcases h with ⟨rfl, rfl⟩ | h
      · rfl
      · obtain ⟨_, _, _, he⟩ := storeResponse_events h
        cases he

/-! ## The two ways -/

variable (cache : CacheEngine σ) (tick : ℕ) (request : HttpMessage)
  (body : Option (List UInt8))

theorem run_one_noVcl :
    run env (start cache tick request body) 1 =
      ⟨{ RequestContext.new request with state := .lookup, body := body }, cache, tick + 1⟩ := by
  show next env (start cache tick request body) = _
  rw [next, loopStep_recv env rfl, stateRecv_noVcl hvcl]
  rfl

theorem run_two_noVcl :
    run env (start cache tick request body) 2 =
      ⟨RequestFsm.step (answerLookup env (tick + 1)
          { missed env request body with state := .lookup }
          (lookupOf env cache tick request).1).1,
        (lookupOf env cache tick request).2, tick + 2⟩ := by
  rw [run_succ, run_one_noVcl hvcl, next, loopStep_lookup env rfl]
  rfl

variable {oc : ObjCore} {n : ℕ}

theorem run_found_noVcl (h : (lookupOf env cache tick request).1 = .hit oc ∨
    (lookupOf env cache tick request).1 = .grace oc) :
    run env (start cache tick request body) 2 =
      ⟨{ missed env request body with
          state := .deliver, obj := some oc, vclAction := some .deliver },
        (lookupOf env cache tick request).2, tick + 2⟩ := by
  rw [run_two_noVcl hvcl, answerLookup_noVcl hvcl]
  rcases h with h | h
  · rw [h]
    rfl
  · rw [h]
    rfl

theorem run_missed_noVcl (h : (lookupOf env cache tick request).1 = .miss) :
    (run env (start cache tick request body) 2).ctx.state = .miss ∧
      run env (start cache tick request body) 3 =
        ⟨missed env request body, (lookupOf env cache tick request).2, tick + 3⟩ := by
  have htwo : run env (start cache tick request body) 2 =
      ⟨{ missed env request body with state := .miss },
        (lookupOf env cache tick request).2, tick + 2⟩ := by
    rw [run_two_noVcl hvcl, answerLookup_noVcl hvcl, h]
    rfl
  refine ⟨by rw [htwo], ?_⟩
  rw [run_succ, htwo]
  simp only [next, loopStep, runVclMiss, runVclSub_noVcl hvcl]
  rfl

/-- The two ways a request can go: to `Deliver` with the object found, or
through `Miss` and `Fetch` with none. -/
theorem states_noVcl : let s := start cache tick request body
    (∃ oc, ((lookupOf env cache tick request).1 = .hit oc ∨
        (lookupOf env cache tick request).1 = .grace oc) ∧ (run env s 2).ctx.obj = some oc ∧
      ∀ n, (run env s n).ctx.state = [.recv, .lookup, .deliver].getD n .done) ∨
    ((lookupOf env cache tick request).1 = .miss ∧ (run env s 4).ctx.obj = none ∧
      ∃ last, (last = .deliver ∨ last = .synth) ∧
        ∀ n, (run env s n).ctx.state = [.recv, .lookup, .miss, .fetch, last].getD n .done) := by
  intro s
  have hone : (run env s 1).ctx.state = .lookup := by rw [run_one_noVcl hvcl]
  rcases lookupOf_cases env cache tick request with ⟨oc, h⟩ | h
  · have htwo := run_found_noVcl hvcl cache tick request body h
    have hdone : (run env s 3).ctx.state = .done := by
      rw [run_succ, next_deliver_noVcl hvcl (by rw [htwo]) (by rw [htwo]; simp)]
    refine .inl ⟨oc, h, by rw [htwo], fun n => ?_⟩
    rcases n with _ | _ | _ | k
    · rfl
    · exact hone
    · exact congrArg (fun t => t.ctx.state) htwo
    · exact run_done hdone (by omega)
  obtain ⟨htwo, hthree⟩ := run_missed_noVcl hvcl cache tick request body h
  have hfetch : (run env s 3).ctx.state = .fetch := by
    rw [hthree]
    rfl
  have hfour : (run env s 4).ctx.state = .deliver ∨ (run env s 4).ctx.state = .synth := by
    simpa [hfetch, successors] using run_state_mem env s 3
  -- without VCL there is no restart to lead back from `Deliver`
  have hdone : (run env s 5).ctx.state = .done := by
    rcases hfour with hdel | hsynth
    · have haction := (pending_run env cache tick request body 4).action hvcl
      rw [run_succ, next_deliver_noVcl hvcl hdel haction]
    · simpa [hsynth, successors] using run_state_mem env s 4
  refine .inr ⟨h, ?_, _, hfour, fun n => ?_⟩
  · rw [run_succ, next_fetch hfetch, hthree]
    exact (stateFetch_keeps env _ _ _).1.obj
  rcases n with _ | _ | _ | _ | _ | k
  · rfl
  · exact hone
  · exact htwo
  · exact hfetch
  · rfl
  · exact run_done hdone (by omega)

theorem fetch_noVcl (h : (run env (start cache tick request body) n).ctx.state = .fetch) :
    n = 3 ∧ (lookupOf env cache tick request).1 = .miss := by
  rcases states_noVcl hvcl cache tick request body with
    ⟨oc, _, _, hstates⟩ | ⟨hmiss, _, last, hlast, hstates⟩
  · rw [hstates] at h
    rcases n with _ | _ | _ | n <;> simp at h
  refine ⟨?_, hmiss⟩
  rw [hstates] at h
  rcases n with _ | _ | _ | _ | _ | n <;> simp at h
  · rfl
  · rcases hlast with rfl | rfl <;> cases h

theorem answeredFrom_noVcl :
    AnsweredFrom env (start cache tick request body) oc ↔
      (lookupOf env cache tick request).1 = .hit oc ∨
        (lookupOf env cache tick request).1 = .grace oc := by
  constructor
  · intro h
    obtain ⟨n, hn, hsource⟩ := h
    rw [deliverSource_object] at hsource
    rcases states_noVcl hvcl cache tick request body with
      ⟨oc', hfound, hobj, hstates⟩ | ⟨_, hobj, last, _, hstates⟩
    · have htwo : n = 2 := by
        rw [hstates] at hn
        rcases n with _ | _ | _ | n <;> simp at hn
        rfl
      rw [htwo, hobj] at hsource
      cases hsource
      exact hfound
    · have hfour : n = 4 := by
        rw [hstates] at hn
        rcases n with _ | _ | _ | _ | _ | n <;> simp at hn
        rfl
      rw [hfour, hobj] at hsource
      cases hsource
  · intro h
    have htwo := run_found_noVcl hvcl cache tick request body h
    refine ⟨2, by rw [htwo], ?_⟩
    rw [deliverSource_object, htwo]

/-- What is asked of the backend: by a missed request, once, its own
forwarded form. -/
theorem backendRequest_noVcl {bereq : HttpMessage} :
    .backendRequest addr bereq ∈ events env (run env (start cache tick request body) n) ↔
      n = 3 ∧ (lookupOf env cache tick request).1 = .miss ∧ env.backendAddr = some addr ∧
        bereq = buildBereq request := by
  have hasks : (lookupOf env cache tick request).1 = .miss → (.backendRequest addr bereq ∈
          events env (run env (start cache tick request body) 3) ↔
        env.backendAddr = some addr ∧ bereq = buildBereq request) := by
    intro hmiss
    rw [(run_missed_noVcl hvcl cache tick request body hmiss).2, events_fetch rfl]
    cases haddr : env.backendAddr with
    | none => simp [stateFetch, haddr]
    | some addr' =>
      rw [stateFetch_noVcl hvcl haddr, askBackend]
      cases env.sendBackendRequest _ addr' (buildBereq (missed env request body).request) with
      | error e => simp [missed, RequestContext.new, eq_comm]
      | ok answer =>
        obtain ⟨beresp, respBody⟩ := answer
        have hstored : ∀ ctx cache, .backendRequest addr bereq ∉
            (storeResponse env (tick + 3) ctx cache beresp respBody).2 := by
          intro ctx cache h
          obtain ⟨_, _, _, he⟩ := storeResponse_events h
          cases he
        simp [receiveResponse_noVcl hvcl, hstored, missed, RequestContext.new, eq_comm]
  constructor
  · intro h
    obtain ⟨rfl, hmiss⟩ := fetch_noVcl hvcl cache tick request body (fetch_of_mem h (by simp) rfl)
    exact ⟨rfl, hmiss, (hasks hmiss).mp h⟩
  intro h
  obtain ⟨rfl, hmiss, h⟩ := h
  exact (hasks hmiss).mpr h

/-- Where a backend response comes from: the fetch of a missed request,
which keeps it for the delivery and may store it. -/
theorem response_noVcl
    (h : .backendResponse beresp respBody ∈
      events env (run env (start cache tick request body) n)) :
    let s := start cache tick request body
    let stored := storeResponse env (tick + 3) (missed env request body)
      (lookupOf env cache tick request).2 beresp respBody
    n = 3 ∧ (lookupOf env cache tick request).1 = .miss ∧ ∃ addr bereq,
      events env (run env s 3) =
        .backendRequest addr bereq :: .backendResponse beresp respBody :: stored.2 ∧
      run env s 4 = ⟨{ missed env request body with
        state := .deliver, bereq := some bereq, beresp := some beresp, respBody := respBody },
        stored.1, tick + 4⟩ := by
  intro s stored
  obtain ⟨rfl, hmiss⟩ := fetch_noVcl hvcl cache tick request body (fetch_of_mem h (by simp) rfl)
  have hthree : run env s 3 = _ := (run_missed_noVcl hvcl cache tick request body hmiss).2
  rw [show run env (start cache tick request body) 3 = _ from hthree, events_fetch rfl] at h
  obtain ⟨addr, bereq, heq⟩ := stateFetch_response_noVcl hvcl _ _ _ h
  refine ⟨rfl, hmiss, addr, bereq, ?_, ?_⟩
  · rw [hthree, events_fetch rfl, heq]
    rfl
  · rw [run_succ, hthree, next_fetch rfl, heq]
    rfl

theorem cache_of_done_noVcl (hmiss : (lookupOf env cache tick request).1 = .miss) {m : ℕ}
    (hm : (run env (start cache tick request body) m).ctx.state = .done) :
    (run env (start cache tick request body) m).cache =
      (run env (start cache tick request body) 4).cache := by
  rcases states_noVcl hvcl cache tick request body with
    ⟨oc, hfound, _⟩ | ⟨_, _, last, hlast, hstates⟩
  · rw [hmiss] at hfound
    simp at hfound
  have hfive : 5 ≤ m := by
    rw [hstates] at hm
    rcases m with _ | _ | _ | _ | _ | m <;> simp at hm
    · rcases hlast with rfl | rfl <;> cases hm
    · omega
  have hfixed : run env (start cache tick request body) m =
      run env (start cache tick request body) 5 :=
    Lib.iterate_of_done (fun _ hd => (next_done hd).1) (hstates 5) hfive
  have hfour := hstates 4
  rw [hfixed, run_succ]
  refine (next_cache ?_ ?_).2
  all_goals rcases hlast with rfl | rfl <;> simp [hfour]

/-- A stored response: the lookup dropped the digest, so the new object is
alone there. -/
theorem stored_noVcl {digest : Digest} {bytes : List UInt8} (h : .insert digest bytes (.ok oc) ∈
      events env (run env (start cache tick request body) n)) :
    let s := start cache tick request body
    digest = env.requestDigest request ∧
      (lookupOf env cache tick request).1 = .miss ∧
      (∃ addr, oc = CacheEngine.newObject addr (env.now (tick + 3)) digest bytes .default none) ∧
      (run env s 4).cache.variants digest = [oc] ∧ (run env s 4).cache.Oldest digest oc := by
  intro s
  -- what is stored is the body of a backend response of the same step
  obtain ⟨addr, bereq, beresp, _, _, hresponse⟩ :=
    (properInsert_of_mem (show s.ctx.digest = none from rfl) rfl h).answered
  obtain ⟨rfl, hmiss, _, _, hevents, hfour⟩ := response_noVcl hvcl cache tick request body hresponse
  rw [hevents] at h
  simp only [List.mem_cons, reduceCtorEq, false_or] at h
  rcases storeResponse_missed env (tick + 3) request body (lookupOf env cache tick request).2
    beresp (some bytes) with ⟨_, hstore⟩ | ⟨bytes', _, _, hstore⟩
  · rw [hstore] at h
    simp at h
  rw [hstore] at h hfour
  simp only [List.mem_singleton, Event.insert.injEq] at h
  obtain ⟨rfl, rfl, hok⟩ := h
  obtain ⟨hnew, hvariants, holdest⟩ := CacheEngine.insert_first (variants_lookupOf hmiss) hok.symm
  rw [show (run env s 4).cache = _ from congrArg Session.cache hfour]
  exact ⟨rfl, hmiss, hnew, hvariants, holdest⟩

/-! ## The answers -/

theorem handleRequest_of_deliver (hdel : (run env s n).ctx.state = .deliver)
    (hgzip : (run env s n).ctx.doGzip = false)
    (haction : (run env s n).ctx.vclAction ≠ some .restart) :
    handleRequest env (n + 1) s = some (buildResponse (run env s n).ctx, run env s (n + 1)) := by
  have hnext := next_deliver_noVcl hvcl hdel haction
  rw [← run_succ] at hnext
  have hfin : ∀ response respBody,
      finishDeliver env { (run env s n).ctx with respBody := none } response respBody =
        { (run env s n).ctx with response := some response, respBody := respBody } := by
    intro response respBody
    simp only [finishDeliver, hgzip]
  rw [hfin] at hnext
  rw [handleRequest, if_pos (by rw [hnext])]
  rw [Session.result]
  congr 2
  · rw [hnext]
    rfl

theorem handleRequest_of_synth {status : HttpStatus} {text : String}
    (hstate : (run env s n).ctx.state = .synth)
    (hstatus : (run env s n).ctx.synthStatus = some status)
    (hbody : (run env s n).ctx.synthBody = some (asBytes text)) :
    handleRequest env (n + 1) s = some (synthAnswer status text, run env s (n + 1)) := by
  have hnext : run env s (n + 1) = next env (run env s n) := run_succ n
  rw [next, loopStep, hstate] at hnext
  simp only [stateSynth, execSubroutine_noVcl hvcl, synthStart, hstatus, hbody,
    Option.getD_some] at hnext
  rw [handleRequest, if_pos (by rw [hnext])]
  rw [Session.result, hnext]
  rfl

theorem answer_of_found (h : (lookupOf env cache tick request).1 = .hit oc ∨
      (lookupOf env cache tick request).1 = .grace oc) :
    let s := start cache tick request body
    handleRequest env 3 s =
      some (buildResponse { missed env request body with obj := some oc }, run env s 3) := by
  intro s
  have htwo : run env s 2 = _ := run_found_noVcl hvcl cache tick request body h
  rw [handleRequest_of_deliver hvcl (by rw [htwo]) (by rw [htwo]; rfl) (by rw [htwo]; simp), htwo]
  rfl

theorem answer_of_missed (hmiss : (lookupOf env cache tick request).1 = .miss) :
    let s := start cache tick request body
    ∃ answer, handleRequest env 5 s = some (answer, run env s 5) ∧
      match fetchOf env tick request with
      | none => answer = synthAnswer .serviceUnavailable "No backend configured"
      | some (.error e) => answer = synthAnswer .badGateway ("Backend fetch failed: " ++ e)
      | some (.ok (beresp, respBody)) =>
        answer = buildResponse
          { missed env request body with beresp := some beresp, respBody := respBody } := by
  intro s
  have hthree : run env s 3 = _ := (run_missed_noVcl hvcl cache tick request body hmiss).2
  have hfour : run env s 4 = next env
      ⟨missed env request body, (lookupOf env cache tick request).2, tick + 3⟩ := by
    rw [run_succ, hthree]
  rw [next_fetch rfl] at hfour
  have hrequest : (missed env request body).request = request := rfl
  cases haddr : env.backendAddr with
  | none =>
    simp only [stateFetch, haddr, if_true] at hfour
    refine ⟨_, handleRequest_of_synth hvcl (by rw [hfour]) (by rw [hfour]) (by rw [hfour]), ?_⟩
    simp [fetchOf, haddr]
  | some addr =>
    rw [stateFetch_noVcl hvcl haddr, askBackend, hrequest] at hfour
    cases hsend : env.sendBackendRequest (tick + 3) addr (buildBereq request) with
    | error e =>
      simp only [hsend, if_true] at hfour
      refine ⟨_, handleRequest_of_synth hvcl (by rw [hfour]) (by rw [hfour]) (by rw [hfour]), ?_⟩
      simp [fetchOf, haddr, hsend]
    | ok response =>
      obtain ⟨beresp, respBody⟩ := response
      simp only [hsend, receiveResponse_noVcl hvcl] at hfour
      refine ⟨_, handleRequest_of_deliver hvcl (n := 4) (by rw [hfour]; rfl)
        (by rw [hfour]) (by rw [hfour]; simp [missed, RequestContext.new]), ?_⟩
      simp only [fetchOf, haddr, hsend, Option.map_some]
      rw [hfour]
      rfl

/-- The answer to a request: the object found, a failure to reach a
backend, or the backend's response. -/
theorem answer_noVcl : let s := start cache tick request body
    ∃ answer, handleRequest env 5 s = some (answer, run env s 5) ∧
      match (lookupOf env cache tick request).1, fetchOf env tick request with
      | .hit oc, _ => answer = buildResponse { missed env request body with obj := some oc }
      | .grace oc, _ => answer = buildResponse { missed env request body with obj := some oc }
      | _, none => answer = synthAnswer .serviceUnavailable "No backend configured"
      | _, some (.error e) => answer = synthAnswer .badGateway ("Backend fetch failed: " ++ e)
      | _, some (.ok (beresp, respBody)) =>
        answer = buildResponse
          { missed env request body with beresp := some beresp, respBody := respBody } := by
  intro s
  rcases lookupOf_cases env cache tick request with ⟨oc, h⟩ | hmiss
  · have hanswer := answer_of_found hvcl cache tick request body h
    refine ⟨_, handleRequest_of_le hanswer (by decide), ?_⟩
    rcases h with h | h
    · simp [h]
    · simp [h]
  obtain ⟨answer, hhandle, hanswer⟩ := answer_of_missed hvcl cache tick request body hmiss
  refine ⟨answer, hhandle, ?_⟩
  rw [hmiss]
  generalize fetchOf env tick request = fetched at hanswer
  rcases fetched with _ | _ | _
  · exact hanswer
  · exact hanswer
  · exact hanswer

end NoVcl

end VarahaCache
