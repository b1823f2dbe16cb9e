import VarahaCache.Server.Run

/-!
# Rounds: what a response is made of

A round is the part of a run since the last visit of `Recv`. Two promises,
each with the exact condition under which the loop keeps it: the response
delivered at the end belongs to the last round (`delivery_belongs_iff`), and a
synth a subroutine decides on is what the client gets (`synth_honoured_iff`).
Both fail because later states read fields that no state resets.
-/

namespace VarahaCache

open Session CacheEngine

variable {σ : Type} {env : Env σ} {s : Session σ}

/-- Step `n` of a run lies in the round of step `m`. -/
def SameRound (env : Env σ) (s : Session σ) : ℕ → ℕ → Prop :=
  Lib.SameRound fun k => (run env s k).ctx.state = .recv

/-! ## Where the states of a round can stand -/

variable {m n : ℕ} {ctx : RequestContext} {status : HttpStatus}

theorem recv_of_before_lookup (hr : SameRound env s m n) (hmn : m < n)
    (hn : (run env s n).ctx.state = .lookup) : (run env s m).ctx.state = .recv := by
  obtain ⟨p, rfl⟩ := Nat.exists_eq_add_of_lt hmn
  have hpred : (run env s (m + p)).ctx.state = .recv := by
    have h := run_state_pred hn
    revert h
    cases (run env s (m + p)).ctx.state <;> simp [successors]
  rcases Nat.eq_zero_or_pos p with rfl | hp
  · exact hpred
  · exact absurd hpred (hr.2 (m + p) (by omega) (by omega))

theorem stateRank_sameRound (hr : SameRound env s m n) (hmn : m < n)
    (hm : (run env s m).ctx.state ≠ .done) :
    stateRank (run env s n).ctx.state < stateRank (run env s m).ctx.state := by
  obtain ⟨p, rfl⟩ := Nat.exists_eq_add_of_lt hmn
  induction p with
  | zero => exact stateRank_lt (run_state_mem env s m) hm (hr.2 (m + 1) (by omega) le_rfl)
  | succ p ih =>
    have hlt := ih (hr.of_le (by omega) (by omega)) (by omega)
    by_cases hdone : (run env s (m + p + 1)).ctx.state = .done
    · have hstay := run_done hdone (show m + p + 1 ≤ m + (p + 1) + 1 by omega)
      rw [hstay]
      rwa [hdone] at hlt
    have hstep := stateRank_lt (run_state_mem env s (m + p + 1)) hdone
      (hr.2 (m + p + 1 + 1) (by omega) (by omega))
    exact hstep.trans hlt

theorem state_unique (hr : SameRound env s m n)
    (hstate : (run env s m).ctx.state = (run env s n).ctx.state)
    (hm : (run env s m).ctx.state ≠ .done) : m = n := by
  by_contra hne
  have hlt := stateRank_sameRound hr (lt_of_le_of_ne hr.1 hne) hm
  rw [hstate] at hlt
  exact lt_irrefl _ hlt

theorem fetch_unique (hr : SameRound env s m n)
    (hm : (run env s m).ctx.state = .fetch) (hn : (run env s n).ctx.state = .fetch) : m = n :=
  state_unique hr (hm.trans hn.symm) (by simp [hm])

/-! ## The response belongs to the last round -/

/-- The cache has something to answer the request with, fresh or in grace. -/
def Answerable (env : Env σ) (s : Session σ) : Prop :=
  ∃ v ∈ s.cache.variants (env.requestDigest s.ctx.request),
    Fresh (env.now s.tick) none v ∨ Stale (env.now s.tick) none v

/-- The lookup of a request found this object. -/
def Finds (env : Env σ) (s : Session σ) (oc : ObjCore) : Prop :=
  (cacheLookup env s).1 = .hit oc ∨ (cacheLookup env s).1 = .grace oc

theorem cacheLookup_fst (env : Env σ) (s : Session σ) :
    (cacheLookup env s).1 =
      scanVariants (env.now s.tick) none (s.cache.variants (env.requestDigest s.ctx.request))
        none :=
  lookup_fst _ _ _ _

theorem heldObject_cacheLookup (env : Env σ) (s : Session σ) (held : Option ObjCore) :
    (Answerable env s ∧ ∃ oc, Finds env s oc ∧ heldObject held (cacheLookup env s).1 = some oc) ∨
      (¬ Answerable env s ∧ (∀ oc, ¬ Finds env s oc) ∧
        heldObject held (cacheLookup env s).1 = held) := by
  unfold Finds
  rcases scanVariants_cases (env.now s.tick) none
    (s.cache.variants (env.requestDigest s.ctx.request)) with ⟨oc, h⟩ | ⟨oc, h⟩ | h
  · obtain ⟨hmem, hfresh⟩ := scanVariants_hit h
    rw [← cacheLookup_fst] at h
    exact .inl ⟨⟨oc, hmem, .inl hfresh⟩, oc, .inl h, by rw [h]; rfl⟩
  · obtain ⟨hmem, hstale, _⟩ := scanVariants_grace h
    rw [← cacheLookup_fst] at h
    exact .inl ⟨⟨oc, hmem, .inr hstale⟩, oc, .inr h, by rw [h]; rfl⟩
  · have hnone := scanVariants_miss_iff.mp h
    rw [← cacheLookup_fst] at h
    refine .inr ⟨?_, by simp [h], by rw [h]; rfl⟩
    intro h
    rcases h with ⟨v, hv, hfresh | hstale⟩
    · exact (hnone v hv).1 hfresh
    · exact (hnone v hv).2 hstale

def DeliverRestarts (env : Env σ) (s : Session σ) : Prop :=
  ∃ after, .vcl .deliver (.action .restart) after ∈ events env s

/-- For a delivery in step `n`: if a fetch of the round got a backend
response, that response (as `vcl_backend_response` and the fetch filter left
it) is what the delivery starts from and what the client gets; if the client
gets a cached object, a lookup of the round found it. -/
structure BelongsToRound (env : Env σ) (s : Session σ) (n : ℕ) : Prop where
  fetched : ∀ m, SameRound env s m n → (run env s m).ctx.state = .fetch →
    (∃ beresp body, .backendResponse beresp body ∈ events env (run env s m)) →
    ∃ beresp, (run env s (m + 1)).ctx.beresp = some beresp ∧
      deliverSource (run env s n).ctx = .backend beresp ∧
      (run env s n).ctx.respBody = (run env s (m + 1)).ctx.respBody ∧
      (run env s (n + 1)).ctx.response ≠ none
  cached : ∀ oc, deliverSource (run env s n).ctx = .object oc →
    (run env s (n + 1)).ctx.response ≠ none →
    ∃ m, SameRound env s m n ∧ (run env s m).ctx.state = .lookup ∧ Finds env (run env s m) oc

theorem deliverSource_object {oc : ObjCore} :
    deliverSource ctx = .object oc ↔ ctx.obj = some oc := by
  unfold deliverSource
  split <;> simp_all

theorem deliverSource_backend {beresp : HttpMessage} :
    deliverSource ctx = .backend beresp ↔ ctx.obj = none ∧ ctx.beresp = some beresp := by
  unfold deliverSource
  split <;> simp_all

theorem response_ne_none_iff (hp : Pending env s.ctx) (hdel : s.ctx.state = .deliver) :
    (next env s).ctx.response ≠ none ↔ ¬ DeliverRestarts env s := by
  obtain ⟨_, _, _, _, _, _, _, _, heq, _, _, hresp⟩ := next_deliver env hdel
  rw [heq]
  rcases hresp with ⟨hsame, _, after, hrestart⟩ | ⟨hsome, hno, _⟩
  · refine iff_of_false ?_ fun h => h ⟨after, hrestart⟩
    have hnone : s.ctx.response = none := hp.response (by simp [hdel])
    exact fun h => h (hsame.trans hnone)
  · exact iff_of_true hsome fun ⟨after, h⟩ => hno after h

theorem belongs_after_fetch {n : ℕ} (hp : Pending env (run env s (n + 1)).ctx)
    (hdel : (run env s (n + 1)).ctx.state = .deliver) (hn : (run env s n).ctx.state = .fetch) :
    BelongsToRound env s (n + 1) ↔
      (run env s n).ctx.obj = none ∧ ¬ DeliverRestarts env (run env s (n + 1)) := by
  obtain ⟨hkeeps, hleads, _, hresponds⟩ :=
    stateFetch_keeps env (run env s n).tick (run env s n).ctx (run env s n).cache
  have hnext : run env s (n + 1) = _ := (run_succ n).trans (next_fetch hn)
  have haction : (stateFetch env (run env s n).tick (run env s n).ctx
      (run env s n).cache).1.vclAction ≠ some .synth := by
    intro h
    rw [hnext] at hdel
    simp [h] at hdel
  have hobj : (run env s (n + 1)).ctx.obj = (run env s n).ctx.obj := by
    rw [hnext]
    exact hkeeps.obj
  obtain ⟨beresp, hberesp⟩ : ∃ beresp, (run env s (n + 1)).ctx.beresp = some beresp := by
    rw [hnext]
    rcases hleads with h | ⟨_, _, h⟩
    · exact absurd h haction
    · exact h
  have hresponse := response_ne_none_iff hp hdel
  rw [← run_succ] at hresponse
  constructor
  · intro h
    -- the fetch itself is the one of the round the promise speaks about
    have hevent := hresponds haction
    rw [← events_fetch hn] at hevent
    have hround : SameRound env s n (n + 1) := (Lib.SameRound.refl n).succ (by simp [hdel])
    obtain ⟨_, _, hsource, _, hresp⟩ := h.fetched n hround hn hevent
    rw [deliverSource_backend, hobj] at hsource
    exact ⟨hsource.1, hresponse.mp hresp⟩
  intro h
  obtain ⟨hnone, hno⟩ := h
  refine ⟨?_, ?_⟩
  · intro m hround hm _
    -- the fetch of the round is the step before
    have hne : m ≠ n + 1 := by
      rintro rfl
      rw [hdel] at hm
      cases hm
    have hle := hround.1
    obtain rfl : m = n := fetch_unique (hround.of_le (by omega) (by omega)) hm hn
    exact ⟨beresp, hberesp, deliverSource_backend.mpr ⟨hobj.trans hnone, hberesp⟩, rfl,
      hresponse.mpr hno⟩
  · intro oc hsource
    rw [deliverSource_object, hobj, hnone] at hsource
    cases hsource

theorem belongs_after_lookup {n : ℕ} (hp : Pending env (run env s (n + 1)).ctx)
    (hdel : (run env s (n + 1)).ctx.state = .deliver) (hn : (run env s n).ctx.state = .lookup) :
    BelongsToRound env s (n + 1) ↔
      DeliverRestarts env (run env s (n + 1)) ∨ (run env s n).ctx.obj = none ∨
        Answerable env (run env s n) := by
  have hround : SameRound env s n (n + 1) := (Lib.SameRound.refl n).succ (by simp [hdel])
  have hobj : (run env s (n + 1)).ctx.obj =
      heldObject (run env s n).ctx.obj (cacheLookup env (run env s n)).1 := by
    obtain ⟨_, _, _, _, heq, _⟩ := next_lookup env hn
    rw [run_succ, heq]
  -- in the round, only `Recv` comes before the lookup
  have hbefore : ∀ m, SameRound env s m (n + 1) → m ≠ n →
      (run env s m).ctx.state ≠ .fetch ∧ (run env s m).ctx.state ≠ .lookup := by
    intro m hr hne
    rcases Nat.lt_or_ge m n with hlt | hge
    · have hrecv := recv_of_before_lookup (hr.of_le (by omega) (by omega)) hlt hn
      simp [hrecv]
    have hle := hr.1
    obtain rfl : m = n + 1 := by omega
    simp [hdel]
  have hresponse := response_ne_none_iff hp hdel
  rw [← run_succ] at hresponse
  constructor
  · intro h
    by_contra hnot
    push Not at hnot
    obtain ⟨hno, hheld, hmiss⟩ := hnot
    obtain ⟨oc, hoc⟩ := Option.ne_none_iff_exists'.mp hheld
    rcases heldObject_cacheLookup env (run env s n) (run env s n).ctx.obj with
      ⟨hans, _⟩ | ⟨_, hfinds, hsame⟩
    · exact hmiss hans
    -- what is delivered is an object held since an earlier round
    · have hsource : deliverSource (run env s (n + 1)).ctx = .object oc := by
        rw [deliverSource_object, hobj, hsame, hoc]
      obtain ⟨m, hr, hm, hfind⟩ := h.cached oc hsource (hresponse.mpr hno)
      by_cases hmn : m = n
      · subst hmn
        exact hfinds oc hfind
      · exact (hbefore m hr hmn).2 hm
  intro h
  refine ⟨?_, ?_⟩
  · intro m hr hm _
    by_cases hmn : m = n
    · subst hmn
      rw [hn] at hm
      cases hm
    · exact absurd hm (hbefore m hr hmn).1
  intro oc hsource hresp
  rw [deliverSource_object, hobj] at hsource
  rcases heldObject_cacheLookup env (run env s n) (run env s n).ctx.obj with
    ⟨_, oc', hfind, hsome⟩ | ⟨hmiss, _, hsame⟩
  · obtain rfl : oc' = oc := by simpa [hsome] using hsource
    exact ⟨n, hround, hn, hfind⟩
  have hno := hresponse.mp hresp
  have hnone : (run env s n).ctx.obj = none := by tauto
  rw [hsame, hnone] at hsource
  cases hsource

def byeResponse : HttpMessage × Option (List UInt8) :=
  (.newResponse .ok .http11, some [98, 121, 101])

def hitPasses : Env Unit := fixedEnv (some (scripted fun
    | .hit => .action .pass
    | _ => .fallthrough)) 60 byeResponse

/-! ## A synth decision is honoured -/

/-- The rest of the round of step `n` asks nothing of the backend, and the
response built in `Synth` starts from `status`. -/
structure Honoured (env : Env σ) (s : Session σ) (n : ℕ) (status : HttpStatus) : Prop where
  silent : ∀ m, n < m → SameRound env s n m →
    ∀ addr bereq, .backendRequest addr bereq ∉ events env (run env s m)
  answers : ∃ m, n < m ∧ SameRound env s n m ∧ (run env s m).ctx.state = .synth ∧
    synthStart (run env s m).ctx = status

theorem silent_of_synth {k m : ℕ} (hk : (run env s k).ctx.state = .synth) (hkm : k ≤ m)
    (addr : SocketAddr) (bereq : HttpMessage) :
    .backendRequest addr bereq ∉ events env (run env s m) := by
  rcases Nat.eq_or_lt_of_le hkm with rfl | hlt
  · obtain ⟨_, _, _, _, _, _, _, hcalls, _⟩ := next_synth env hk
    intro h
    obtain ⟨_, _, he⟩ := hcalls _ h
    cases he
  · have hdone : (run env s (k + 1)).ctx.state = .done := by
      simpa [hk, successors] using run_state_mem env s k
    simp [next_done (run_done hdone hlt)]

theorem synth_unique {k m : ℕ} (hk : (run env s k).ctx.state = .synth)
    (hm : (run env s m).ctx.state = .synth) : k = m := by
  have hlt : ∀ {i j : ℕ}, (run env s i).ctx.state = .synth →
      (run env s j).ctx.state = .synth → ¬ i < j := by
    intro i j hi hj hij
    have hdone : (run env s (i + 1)).ctx.state = .done := by
      simpa [hi, successors] using run_state_mem env s i
    rw [run_done hdone hij] at hj
    cases hj
  exact Nat.le_antisymm (not_lt.mp (hlt hm hk)) (not_lt.mp (hlt hk hm))

theorem honoured_of_synth_next {n : ℕ} (hsynth : (run env s (n + 1)).ctx.state = .synth) :
    Honoured env s n status ↔ synthStart (run env s (n + 1)).ctx = status := by
  constructor
  · intro h
    obtain ⟨_, m, _, _, hm, hstatus⟩ := h
    obtain rfl := synth_unique hsynth hm
    exact hstatus
  · intro hstatus
    refine ⟨fun m hm _ => silent_of_synth hsynth hm, n + 1, Nat.lt_succ_self n, ?_, hsynth, hstatus⟩
    exact (Lib.SameRound.refl n).succ (by simp [hsynth])

theorem honoured_of_fetch_next {n : ℕ} (hfetch : (run env s (n + 1)).ctx.state = .fetch)
    (hsynth : (run env s (n + 2)).ctx.state = .synth) :
    Honoured env s n status ↔
      (∀ addr bereq, .backendRequest addr bereq ∉ events env (run env s (n + 1))) ∧
        synthStart (run env s (n + 2)).ctx = status := by
  have hround : SameRound env s n (n + 1) := (Lib.SameRound.refl n).succ (by simp [hfetch])
  constructor
  · intro h
    obtain ⟨hsilent, m, _, _, hm, hstatus⟩ := h
    obtain rfl := synth_unique hsynth hm
    exact ⟨hsilent (n + 1) (Nat.lt_succ_self n) hround, hstatus⟩
  intro h
  obtain ⟨hsilent, hstatus⟩ := h
  refine ⟨?_, n + 2, by omega, hround.succ (by simp [hsynth]), hsynth, hstatus⟩
  intro m hm _
  rcases Nat.eq_or_lt_of_le (Nat.succ_le_of_lt hm) with rfl | hlt
  · exact hsilent
  · exact silent_of_synth hsynth hlt

/-- The fetch gives up before it asks the backend. -/
def FetchGivesUp (env : Env σ) (s : Session σ) : Prop :=
  env.backendAddr = none ∨ ∃ after, .vcl .backendFetch (.action .abandon) after ∈ events env s

/-- A fetch after a synth decision ends in `Synth`; it asks nothing exactly
when it gives up first, and then its own status stands. -/
theorem fetch_after_synth (env : Env σ) {t : Session σ} (hstate : t.ctx.state = .fetch)
    (haction : t.ctx.vclAction = some .synth) :
    (next env t).ctx.state = .synth ∧
      ((FetchGivesUp env t ∧ (∀ addr bereq, .backendRequest addr bereq ∉ events env t) ∧
          synthStart (next env t).ctx = .serviceUnavailable) ∨
        (¬ FetchGivesUp env t ∧ ∃ addr bereq, .backendRequest addr bereq ∈ events env t)) := by
  have hsynth : (stateFetch env t.tick t.ctx t.cache).1.vclAction = some .synth := by
    rcases (stateFetch_keeps env t.tick t.ctx t.cache).2.1 with h | ⟨h, _⟩
    · exact h
    · rw [h, haction]
  refine ⟨by rw [next_fetch hstate]; simp [hsynth], ?_⟩
  unfold FetchGivesUp
  rw [events_fetch hstate, next_fetch hstate]
  rcases stateFetch_spec env t.tick t.ctx t.cache with
    ⟨_, _, evs, heq, hevents⟩ | ⟨addr, bereq, request, calls, heq, haddr, hcalls⟩
  · left
    rw [heq]
    rcases hevents with ⟨hnone, rfl⟩ | ⟨after, rfl⟩
    · exact ⟨.inl hnone, by simp, rfl⟩
    · exact ⟨.inr ⟨after, by simp⟩, by simp, rfl⟩
  right
  obtain ⟨_, _, hasked, hsubs, _⟩ :=
    askBackend_spec env t.tick { t.ctx with request := request } t.cache addr bereq
  rw [heq]
  refine ⟨?_, addr, bereq, List.mem_append_right _ hasked⟩
  intro hgives
  rcases hgives with hnone | ⟨after, h⟩
  · rw [haddr] at hnone
    cases hnone
  rcases List.mem_append.mp h with h | h
  · obtain ⟨_, _, he, hne⟩ := hcalls _ h
    cases he
    exact hne rfl
  · cases hsubs _ _ _ h

/-- A decision that leads through `Fetch` has its backend silent and its
status kept only by a fetch that gives up, and then the status is a 503. -/
theorem honoured_through_fetch {n : ℕ} {code : UInt16}
    (hfetch : (run env s (n + 1)).ctx.state = .fetch)
    (haction : (run env s (n + 1)).ctx.vclAction = some .synth) :
    Honoured env s n ⟨code⟩ ↔ code = 503 ∧ FetchGivesUp env (run env s (n + 1)) := by
  obtain ⟨hsynth, hcases⟩ := fetch_after_synth env hfetch haction
  rw [← run_succ] at hsynth
  rw [honoured_of_fetch_next hfetch hsynth, run_succ (n + 1)]
  rcases hcases with ⟨hgives, hsilent, hstatus⟩ | ⟨hasks, addr, bereq, hasked⟩
  · rw [hstatus]
    have hcode : HttpStatus.serviceUnavailable = ⟨code⟩ ↔ code = 503 := by
      simp [HttpStatus.serviceUnavailable, eq_comm]
    simp [hgives, hcode, hsilent]
  · exact iff_of_false (fun h => h.1 addr bereq hasked) (fun h => hasks h.2)

theorem state_of_call {sub : VclSub} {result : VclExecResult} {after : VclContext}
    (hsub : sub = .recv ∨ sub = .hit ∨ sub = .miss ∨ sub = .pass)
    (h : .vcl sub result after ∈ events env s) :
    s.ctx.state = .recv ∨ s.ctx.state = .lookup ∨ s.ctx.state = .pass ∨ s.ctx.state = .miss := by
  have hmem := mem_subsOf h
  revert hmem
  cases s.ctx.state <;> rcases hsub with rfl | rfl | rfl | rfl <;> simp [subsOf]

/-- One subroutine decides on a synth; `vcl_recv` may send the request
elsewhere. -/
def decidesSynth (recv : VclExecResult) (sub : VclSub) (code : UInt16) : Env Unit :=
  fixedEnv (some fun _ called vclCtx =>
    if called = sub then (.action .synth, { vclCtx with synthStatus := some code })
    else if called = .recv then (recv, vclCtx)
    else (.fallthrough, vclCtx)) 60 byeResponse

end VarahaCache
