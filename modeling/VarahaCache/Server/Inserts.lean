import VarahaCache.Server.Rounds

/-!
# What enters the cache

Every insertion a request makes is made by the one `cache.insert` of
`state_fetch`. The guard of that call reads fields that were set in other
states, perhaps rounds before: the digest in `Lookup`, the pass flag in
`Pass`. `inserts_proper` ties them together over whole runs.
-/

namespace VarahaCache

open List

variable {σ : Type} {env : Env σ} {s : Session σ} {e : Event} {n : ℕ} {digest : Digest}

/-! ## One step -/

theorem next_digest_isPass (env : Env σ) (s : Session σ) :
    (next env s).ctx.digest = (if s.ctx.state = .lookup then some (env.requestDigest s.ctx.request)
          else s.ctx.digest) ∧
      (next env s).ctx.isPass = (s.ctx.isPass || decide (s.ctx.state = .pass)) := by
  cases hstate : s.ctx.state with
  | recv =>
    obtain ⟨_, _, _, _, _, heq, _⟩ := next_recv env hstate
    simp [heq]
  | lookup =>
    obtain ⟨_, _, _, _, heq, _⟩ := next_lookup env hstate
    simp [heq]
  | pass | miss =>
    obtain ⟨_, _, _, heq, _⟩ := next_toFetch (s := s) env (by simp [hstate])
    simp [heq, hstate]
  | pipe => simp [next_pipe hstate]
  | fetch =>
    have hkeeps := (stateFetch_keeps env s.tick s.ctx s.cache).1
    simp [next_fetch hstate, hkeeps.digest, hkeeps.isPass]
  | deliver =>
    obtain ⟨_, _, _, _, _, _, _, _, heq, _⟩ := next_deliver env hstate
    simp [heq]
  | synth =>
    obtain ⟨_, _, _, _, _, heq, _⟩ := next_synth env hstate
    simp [heq]
  | done => simp [next_done hstate]

def Event.isInsert : Event → Bool
  | .insert .. => true
  | _ => false

def Event.isLookup : Event → Bool
  | .lookup .. => true
  | _ => false

/-- Outside `Fetch` a step reports VCL calls and, in `Lookup`, the lookup. -/
theorem events_cases (hfetch : s.ctx.state ≠ .fetch) (he : e ∈ events env s) :
    (∃ sub r after, e = .vcl sub r after ∧ sub ≠ .backendResponse) ∨
      (s.ctx.state = .lookup ∧ ∃ digest r, e = .lookup digest r) := by
  cases hstate : s.ctx.state with
  | recv =>
    obtain ⟨_, _, _, _, _, _, _, _, hcalls, _⟩ := next_recv env hstate
    obtain ⟨r, after, rfl, _⟩ := hcalls e he
    exact .inl ⟨_, r, after, rfl, by simp⟩
  | lookup =>
    obtain ⟨_, _, _, calls, _, hevents, _, hcalls⟩ := next_lookup env hstate
    rw [hevents] at he
    rcases mem_cons.mp he with rfl | he
    · exact .inr ⟨rfl, _, _, rfl⟩
    obtain ⟨sub, r, after, rfl, hsub, _⟩ := hcalls e he
    refine .inl ⟨sub, r, after, rfl, ?_⟩
    rcases hsub with rfl | rfl <;> simp
  | pass | miss =>
    obtain ⟨_, _, _, _, hsub, hcalls⟩ := next_toFetch (s := s) env (by simp [hstate])
    obtain ⟨r, after, rfl, _⟩ := hcalls e he
    exact .inl ⟨_, r, after, rfl, hsub⟩
  | pipe => simp [next_pipe hstate] at he
  | fetch => exact absurd hstate hfetch
  | deliver =>
    obtain ⟨_, _, _, _, _, _, _, _, _, _, hcalls, _⟩ := next_deliver env hstate
    obtain ⟨r, after, rfl⟩ := hcalls e he
    exact .inl ⟨_, r, after, rfl, by simp⟩
  | synth =>
    obtain ⟨_, _, _, _, _, _, _, hcalls, _⟩ := next_synth env hstate
    obtain ⟨r, after, rfl⟩ := hcalls e he
    exact .inl ⟨_, r, after, rfl, by simp⟩
  | done => simp [next_done hstate] at he

/-- What a fetch that stores something has looked at. -/
structure StoredBy (env : Env σ) (tick : ℕ) (ctx : RequestContext)
    (r : RequestContext × CacheEngine σ × List Event) (digest : Digest) (body : List UInt8) :
    Prop where
  digest : ctx.digest = some digest
  isPass : ctx.isPass = false
  answered : ∃ addr bereq beresp,
    env.sendBackendRequest tick addr bereq = .ok (beresp, some body) ∧
      .backendRequest addr bereq ∈ r.2.2 ∧ .backendResponse beresp (some body) ∈ r.2.2
  judged : ∀ result after, .vcl .backendResponse result after ∈ r.2.2 →
    result ≠ .action .pass ∧ result ≠ .action .abandon ∧ after.uncacheable = false ∧
      after.beresp.status = .ok
  ok : ∃ beresp, r.1.beresp = some beresp ∧ beresp.status = .ok

/-- The cache calls of a fetch: at most one insertion, of something it may
store; without it the cache is left alone. -/
structure FetchInserts (env : Env σ) (tick : ℕ) (ctx : RequestContext) (cache : CacheEngine σ)
    (r : RequestContext × CacheEngine σ × List Event) : Prop where
  once : r.2.2.countP Event.isInsert ≤ 1
  stored : ∀ digest body result, .insert digest body result ∈ r.2.2 →
    StoredBy env tick ctx r digest body
  untouched : (∀ e ∈ r.2.2, e.isInsert = false) → r.2.1 = cache
  noLookup : ∀ e ∈ r.2.2, e.isLookup = false
  reached : cache.Reached env.stevedore → r.2.1.Reached env.stevedore

/-- A fetch leaves the cache alone, or makes an insertion and reports it. -/
def CallsCache (env : Env σ) (tick : ℕ) (cache : CacheEngine σ)
    (r : RequestContext × CacheEngine σ × List Event) : Prop :=
  (r.2.1 = cache ∧ ∀ digest body result, .insert digest body result ∉ r.2.2) ∨
    ∃ digest body ttlInfo,
      let i := cache.insert env.stevedore (env.now tick) digest body ttlInfo none
      r.2.1 = i.2 ∧ .insert digest body i.1.2 ∈ r.2.2

open Event

theorem silent_of_vcl {calls : List Event} {sub : VclSub} {P : VclExecResult → VclContext → Prop}
    (h : ∀ e ∈ calls, ∃ r after, e = .vcl sub r after ∧ P r after) :
    calls.countP isInsert = 0 ∧ ∀ e ∈ calls, e.isLookup = false := by
  rw [countP_eq_zero]
  refine ⟨?_, ?_⟩
  · intro e he
    obtain ⟨_, _, rfl, _⟩ := h e he
    simp [isInsert]
  intro e he
  obtain ⟨_, _, rfl, _⟩ := h e he
  rfl

theorem askBackend_inserts (env : Env σ) (tick : ℕ) (ctx : RequestContext)
    (cache : CacheEngine σ) (addr : SocketAddr) (bereq : HttpMessage) :
    FetchInserts env tick ctx cache (askBackend env tick ctx cache addr bereq) ∧
      CallsCache env tick cache (askBackend env tick ctx cache addr bereq) := by
  unfold askBackend
  dsimp only
  split
  · -- the backend does not answer
    exact ⟨⟨by simp [isInsert], by simp, fun _ => rfl, by simp [isLookup], id⟩,
      .inl ⟨rfl, by simp⟩⟩
  rename_i beresp body hsend
  rcases receiveResponse_spec env tick { ctx with bereq := some bereq } cache bereq beresp body
    with ⟨after, heq⟩ | ⟨request, doGzip, doGunzip, uncacheable, ttl, grace, keep, beresp',
      respBody, calls, heq, hcalls⟩
  · -- `vcl_backend_response` abandons the response
    rw [heq]
    exact ⟨⟨by simp [isInsert], by simp, fun _ => rfl, by simp [isLookup], id⟩,
      .inl ⟨rfl, by simp⟩⟩
  rw [heq]
  obtain ⟨hvcl, hlookup⟩ := silent_of_vcl hcalls
  have hnone : ∀ d b result, .insert d b result ∉ calls := by
    intro d b result h
    obtain ⟨_, _, he, _⟩ := hcalls _ h
    cases he
  rcases storeResponse_spec env tick
    { ctx with
      bereq := some bereq, request := request, doGzip := doGzip, doGunzip := doGunzip
      uncacheable := uncacheable, berespTtl := ttl, berespGrace := grace, berespKeep := keep }
    cache beresp' body with ⟨hstore, _⟩ | ⟨stored, digest, hstores, hstore⟩
  · rw [hstore]
    have hnot : ∀ d b result, .insert d b result ∉ backendRequest addr bereq ::
        .backendResponse beresp body :: (calls ++ []) := by simpa using hnone
    exact ⟨⟨by simp [isInsert, hvcl], fun d b result h => absurd h (hnot d b result),
      fun _ => rfl, by simpa [isLookup], id⟩, .inl ⟨rfl, hnot⟩⟩
  rw [hstore]
  refine ⟨⟨by simp [isInsert, hvcl], ?_, ?_, ?_, fun h => h.step ⟨_, .insert ..⟩⟩,
    .inr ⟨digest, stored, _, rfl, by simp⟩⟩
  · intro d b result h
    obtain ⟨hbody, hdigest, hpass, hunc, hok⟩ := hstores
    simp only [mem_cons, reduceCtorEq, false_or, mem_append, hnone,
      not_mem_nil, or_false, Event.insert.injEq] at h
    obtain ⟨rfl, rfl, _⟩ := h
    rw [hbody] at hsend
    refine ⟨hdigest, hpass, ⟨addr, bereq, beresp, hsend, by simp, by simp [hbody]⟩, ?_,
      beresp', rfl, hok⟩
    intro r after hcall
    simp only [mem_cons, reduceCtorEq, false_or, mem_append, not_mem_nil, or_false] at hcall
    obtain ⟨_, _, he, hnoabandon, hberesp, hjudge⟩ := hcalls _ hcall
    cases he
    -- pass and `uncacheable` both end in the flag the guard has tested
    refine ⟨fun hpass => ?_, hnoabandon, ?_, by rw [hberesp]; exact hok⟩
    · rw [hjudge (.inl hpass)] at hunc
      cases hunc
    by_contra hcon
    rw [hjudge (.inr (by simpa using hcon))] at hunc
    cases hunc
  · intro h
    simp [or_imp, forall_and, isInsert] at h
  · simpa [or_imp, forall_and, isLookup]

theorem stateFetch_inserts (env : Env σ) (tick : ℕ) (ctx : RequestContext) (cache : CacheEngine σ) :
    FetchInserts env tick ctx cache (stateFetch env tick ctx cache) ∧
      CallsCache env tick cache (stateFetch env tick ctx cache) := by
  rcases stateFetch_spec env tick ctx cache with
    ⟨_, _, _, heq, hevents⟩ | ⟨addr, bereq, request, calls, heq, _, hcalls⟩
  · rw [heq]
    rcases hevents with ⟨_, rfl⟩ | ⟨_, rfl⟩ <;>
      exact ⟨⟨by simp [isInsert], by simp, fun _ => rfl, by simp [isLookup], id⟩,
        .inl ⟨rfl, by simp⟩⟩
  obtain ⟨⟨honce, hstored, huntouched, hnoLookup, hreached⟩, hcache⟩ :=
    askBackend_inserts env tick { ctx with request := request } cache addr bereq
  obtain ⟨hvcl, hlookup⟩ := silent_of_vcl hcalls
  have hmem : ∀ digest body result, .insert digest body result ∈ calls ++
      (askBackend env tick { ctx with request := request } cache addr bereq).2.2 →
      .insert digest body result ∈
        (askBackend env tick { ctx with request := request } cache addr bereq).2.2 := by
    intro digest body result h
    rcases mem_append.mp h with h | h
    · obtain ⟨_, _, he, _⟩ := hcalls _ h
      cases he
    · exact h
  rw [heq]
  refine ⟨⟨?_, ?_, fun h => huntouched fun e he => h e (mem_append_right _ he), ?_,
    hreached⟩, hcache.imp (And.imp_right fun hnone digest body result h =>
      hnone digest body result (hmem digest body result h)) fun hinsert => ?_⟩
  · rw [countP_append]
    omega
  · intro digest body result h
    obtain ⟨hdigest, hpass, ⟨a, b, c, hsend, hasked, hanswered⟩, hjudged, hok⟩ :=
      hstored digest body result (hmem digest body result h)
    refine ⟨hdigest, hpass, ⟨a, b, c, hsend, mem_append_right _ hasked,
      mem_append_right _ hanswered⟩, ?_, hok⟩
    intro r after hcall
    rcases mem_append.mp hcall with hcall | hcall
    · obtain ⟨_, _, he, _⟩ := hcalls _ hcall
      cases he
    · exact hjudged r after hcall
  · intro e he
    exact (mem_append.mp he).elim (hlookup e) (hnoLookup e)
  · obtain ⟨digest, body, ttlInfo, hput, hreported⟩ := hinsert
    exact ⟨digest, body, ttlInfo, hput, mem_append_right _ hreported⟩

theorem fetch_of_mem (he : e ∈ events env s)
    (hvcl : ∀ sub r after, e = .vcl sub r after → sub = .backendResponse)
    (hlookup : e.isLookup = false) : s.ctx.state = .fetch := by
  by_contra hne
  rcases events_cases hne he with ⟨sub, r, after, rfl, hsub⟩ | ⟨_, digest, r, rfl⟩
  · exact hsub (hvcl sub r after rfl)
  · simp [isLookup] at hlookup

theorem next_cache (hlookup : s.ctx.state ≠ .lookup)
    (hpass : s.ctx.state = .fetch → s.ctx.isPass = true) :
    (∀ e ∈ events env s, e.isLookup = false ∧ e.isInsert = false) ∧
      (next env s).cache = s.cache := by
  by_cases hfetch : s.ctx.state = .fetch
  · obtain ⟨⟨_, hstored, huntouched, hnoLookup, _⟩, _⟩ :=
      stateFetch_inserts env s.tick s.ctx s.cache
    have hnone : ∀ e ∈ (stateFetch env s.tick s.ctx s.cache).2.2, e.isInsert = false := by
      intro e he
      cases e with
      | insert digest body result =>
        have hno := (hstored digest body result he).isPass
        rw [hpass hfetch] at hno
        cases hno
      | _ => rfl
    rw [events_fetch hfetch, next_fetch hfetch]
    exact ⟨fun e he => ⟨hnoLookup e he, hnone e he⟩, huntouched hnone⟩
  refine ⟨?_, ?_⟩
  · intro e he
    rcases events_cases hfetch he with ⟨_, _, _, rfl, _⟩ | ⟨hl, _⟩
    · exact ⟨rfl, rfl⟩
    · exact absurd hl hlookup
  cases hstate : s.ctx.state with
  | recv =>
    obtain ⟨_, _, _, _, _, heq, _⟩ := next_recv env hstate
    rw [heq]
  | lookup => exact absurd hstate hlookup
  | pass | miss =>
    obtain ⟨_, _, _, heq, _⟩ := next_toFetch (s := s) env (by simp [hstate])
    rw [heq]
  | pipe => rw [(next_pipe hstate).1]
  | fetch => exact absurd hstate hfetch
  | deliver =>
    obtain ⟨_, _, _, _, _, _, _, _, heq, _⟩ := next_deliver env hstate
    rw [heq]
  | synth =>
    obtain ⟨_, _, _, _, _, heq, _⟩ := next_synth env hstate
    rw [heq]
  | done => rw [(next_done hstate).1]

theorem next_reached (h : s.cache.Reached env.stevedore) :
    (next env s).cache.Reached env.stevedore := by
  by_cases hfetch : s.ctx.state = .fetch
  · rw [next_fetch hfetch]
    exact (stateFetch_inserts env s.tick s.ctx s.cache).1.reached h
  by_cases hlookup : s.ctx.state = .lookup
  · obtain ⟨_, _, _, _, heq, _⟩ := next_lookup env hlookup
    rw [heq]
    exact h.step ⟨env.now s.tick, .lookup _ none⟩
  · rw [(next_cache hlookup fun h => absurd h hfetch).2]
    exact h

/-! ## Whole runs -/

theorem run_reached (h : s.cache.Reached env.stevedore) (n : ℕ) :
    (run env s n).cache.Reached env.stevedore := by
  induction n with
  | zero => exact h
  | succ n ih =>
    rw [run_succ]
    exact next_reached ih

theorem digest_run (hstart : s.ctx.digest = none) (h : (run env s n).ctx.digest = some digest) :
    ∃ m < n, (run env s m).ctx.state = .lookup ∧
      env.requestDigest (run env s m).ctx.request = digest ∧
      ∀ k, m < k → k < n → (run env s k).ctx.state ≠ .lookup := by
  induction n with
  | zero =>
    rw [run_zero, hstart] at h
    cases h
  | succ n ih =>
    rw [run_succ, (next_digest_isPass env _).1] at h
    by_cases hl : (run env s n).ctx.state = .lookup
    · rw [if_pos hl] at h
      exact ⟨n, by omega, hl, Option.some.inj h, fun k _ _ => by omega⟩
    rw [if_neg hl] at h
    obtain ⟨m, hm, hstate, hdigest, hlast⟩ := ih h
    refine ⟨m, by omega, hstate, hdigest, ?_⟩
    intro k hmk hkn
    rcases Nat.lt_succ_iff_lt_or_eq.mp hkn with hk | rfl
    · exact hlast k hmk hk
    · exact hl

theorem isPass_run (hstart : s.ctx.isPass = false) (n : ℕ) :
    (run env s n).ctx.isPass = true ↔ ∃ m < n, (run env s m).ctx.state = .pass := by
  induction n with
  | zero => simp [hstart]
  | succ n ih =>
    rw [run_succ, (next_digest_isPass env _).2, Bool.or_eq_true, ih, decide_eq_true_eq]
    constructor
    · intro hpassed
      rcases hpassed with ⟨m, hm, h⟩ | h
      · exact ⟨m, by omega, h⟩
      · exact ⟨n, by omega, h⟩
    intro hpassed
    obtain ⟨m, hm, h⟩ := hpassed
    rcases Nat.lt_succ_iff_lt_or_eq.mp hm with hm | rfl
    · exact .inl ⟨m, hm, h⟩
    · exact .inr h

/-- What may be said of an insertion made in step `n`. -/
structure ProperInsert (env : Env σ) (s : Session σ) (n : ℕ) (digest : Digest)
    (body : List UInt8) : Prop where
  latestLookup : ∃ m < n, (run env s m).ctx.state = .lookup ∧
    env.requestDigest (run env s m).ctx.request = digest ∧
    ∀ k, m < k → k < n → (run env s k).ctx.state ≠ .lookup
  answered : ∃ addr bereq beresp,
    env.sendBackendRequest (run env s n).tick addr bereq = .ok (beresp, some body) ∧
      .backendRequest addr bereq ∈ events env (run env s n) ∧
      .backendResponse beresp (some body) ∈ events env (run env s n)
  neverPassed : ∀ m ≤ n, (run env s m).ctx.state ≠ .pass
  judged : ∀ k, SameRound env s k n ∨ SameRound env s n k →
    ∀ result after, .vcl .backendResponse result after ∈ events env (run env s k) →
      result ≠ .action .pass ∧ result ≠ .action .abandon ∧ after.uncacheable = false ∧
        after.beresp.status = .ok
  ok : ∃ beresp, (run env s (n + 1)).ctx.beresp = some beresp ∧ beresp.status = .ok

theorem properInsert_of_mem (hdigest : s.ctx.digest = none) (hpass : s.ctx.isPass = false)
    {body : List UInt8} {result : Except CacheError ObjCore}
    (h : .insert digest body result ∈ events env (run env s n)) :
    ProperInsert env s n digest body := by
  have hfetch : (run env s n).ctx.state = .fetch := fetch_of_mem h (by simp) rfl
  rw [events_fetch hfetch] at h
  have hstored := (stateFetch_inserts env _ _ _).1.stored digest body result h
  refine ⟨digest_run hdigest hstored.digest, ?_, ?_, ?_, ?_⟩
  · rw [events_fetch hfetch]
    exact hstored.answered
  · intro m hmn hm
    have hlt : m < n := by
      refine lt_of_le_of_ne hmn ?_
      rintro rfl
      rw [hfetch] at hm
      cases hm
    have hflag := (isPass_run hpass n).mpr ⟨m, hlt, hm⟩
    rw [hstored.isPass] at hflag
    cases hflag
  · intro k hround result after hcall
    have hk : (run env s k).ctx.state = .fetch := by
      refine fetch_of_mem hcall ?_ rfl
      rintro _ _ _ ⟨⟩
      rfl
    have hkn : k = n := hround.elim (fun hr => fetch_unique hr hk hfetch)
      fun hr => (fetch_unique hr hfetch hk).symm
    subst hkn
    rw [events_fetch hfetch] at hcall
    exact hstored.judged result after hcall
  · rw [run_succ, next_fetch hfetch]
    exact hstored.ok

/-- A run that passes at once and is not restarted. -/
structure PassesThrough (env : Env σ) (s : Session σ) : Prop where
  pass : (run env s 1).ctx.state = .pass
  fetch : (run env s 2).ctx.state = .fetch
  deliver : (run env s 3).ctx.state = .deliver
  done : (run env s 4).ctx.state = .done

theorem PassesThrough.quiet (h : PassesThrough env s) (hstart : s.ctx.state = .recv)
    (hpass : s.ctx.isPass = false) (n : ℕ) :
    (run env s n).ctx.state ≠ .lookup ∧
      ((run env s n).ctx.state = .fetch → (run env s n).ctx.isPass = true) := by
  match n with
  | 0 => simp [hstart]
  | 1 => simp [h.pass]
  | 2 =>
    rw [h.fetch]
    exact ⟨by simp, fun _ => (isPass_run hpass 2).mpr ⟨1, by omega, h.pass⟩⟩
  | 3 => simp [h.deliver]
  | k + 4 => simp [run_done h.done (show 4 ≤ k + 4 by omega)]

/-- **Only proper backend bodies enter the cache**, whatever the VCL and the
backend do: every insertion is proper, a round makes at most one, and a
request that passes without restart never calls the cache. -/
theorem inserts_proper (env : Env σ) (cache : CacheEngine σ) (tick : ℕ)
    (request : HttpMessage) (body : Option (List UInt8)) :
    let s := Session.start cache tick request body
    (∀ n digest stored result, .insert digest stored result ∈ events env (run env s n) →
      ProperInsert env s n digest stored) ∧
    (∀ n, (events env (run env s n)).countP Event.isInsert ≤ 1) ∧
    (∀ m n, SameRound env s m n →
      (∃ e ∈ events env (run env s m), e.isInsert = true) →
      (∃ e ∈ events env (run env s n), e.isInsert = true) → m = n) ∧
    (PassesThrough env s → ∀ n, (run env s n).cache = cache ∧
      ∀ e ∈ events env (run env s n), e.isLookup = false ∧ e.isInsert = false) := by
  intro s
  have hfetch : ∀ n, ∀ e ∈ events env (run env s n), e.isInsert = true →
      (run env s n).ctx.state = .fetch := by
    intro n e he hinsert
    cases e with
    | insert => exact fetch_of_mem he (by simp) rfl
    | _ => simp [Event.isInsert] at hinsert
  refine ⟨fun n digest stored result h => properInsert_of_mem rfl rfl h, ?_, ?_, ?_⟩
  · intro n
    by_cases hn : (run env s n).ctx.state = .fetch
    · rw [events_fetch hn]
      exact (stateFetch_inserts env _ _ _).1.once
    have hnone : (events env (run env s n)).countP Event.isInsert = 0 := by
      rw [countP_eq_zero]
      exact fun e he hinsert => hn (hfetch n e he hinsert)
    omega
  · rintro m n hr ⟨e, he, hinsert⟩ ⟨e', he', hinsert'⟩
    exact fetch_unique hr (hfetch m e he hinsert) (hfetch n e' he' hinsert')
  · intro hpasses n
    have hquiet := hpasses.quiet rfl rfl
    refine ⟨?_, (next_cache (hquiet n).1 (hquiet n).2).1⟩
    induction n with
    | zero => rfl
    | succ n ih =>
      rw [run_succ, (next_cache (hquiet n).1 (hquiet n).2).2]
      exact ih

/-- A miss on the empty cache: `bye` is stored under the digest looked up. -/
theorem inserts_proper_miss : let s := Session.start (CacheEngine.new () 10) 0 getRoot none
    ∃ n result, .insert CacheEngine.digestZero [98, 121, 101] result ∈
        events (fixedEnv none 60 byeResponse) (run (fixedEnv none 60 byeResponse) s n) ∧
      ProperInsert (fixedEnv none 60 byeResponse) s n CacheEngine.digestZero [98, 121, 101] := by
  intro s
  obtain ⟨hproper, _⟩ :=
    inserts_proper (fixedEnv none 60 byeResponse) (CacheEngine.new () 10) 0 getRoot none
  have hmem : ∃ result, .insert CacheEngine.digestZero [98, 121, 101] result ∈
      events (fixedEnv none 60 byeResponse) (run (fixedEnv none 60 byeResponse) s 3) := by
    have hone : (events (fixedEnv none 60 byeResponse) (run (fixedEnv none 60 byeResponse) s 3)).any
        (fun | .insert d b _ => d = CacheEngine.digestZero ∧ b = [98, 121, 101] | _ => false) := by
      decide +kernel
    obtain ⟨e, he, h⟩ := any_eq_true.mp hone
    cases e with
    | insert d b result =>
      simp only [decide_eq_true_eq] at h
      obtain ⟨rfl, rfl⟩ := h
      exact ⟨result, he⟩
    | _ => simp at h
  obtain ⟨result, hmem⟩ := hmem
  exact ⟨3, result, hmem, hproper 3 _ _ result hmem⟩

end VarahaCache
