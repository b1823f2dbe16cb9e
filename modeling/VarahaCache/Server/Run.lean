import VarahaCache.Server.Steps
import VarahaCache.Cache.Soundness

/-!
# Runs of the request loop

The transition graph of the loop, the facts that hold at every point of
every run, and rounds: the stretches of a run between two visits of `Recv`.
At the end, the small fixed setting the example runs are taken in.
-/

namespace VarahaCache

open scoped List

variable {σ : Type} {env : Env σ} {s : Session σ} {n : Nat}
  {answer : HttpMessage × Option (List UInt8)}

@[simp] theorem run_zero : run env s 0 = s := rfl

theorem run_succ (n : Nat) : run env s (n + 1) = next env (run env s n) :=
  Function.iterate_succ_apply' (next env) n s

/-! ## The transition graph -/

def successors : RequestState → List RequestState
  | .recv => [.lookup, .pass, .pipe, .synth]
  | .lookup => [.deliver, .pass, .miss, .synth, .recv]
  | .pass => [.fetch]
  | .miss => [.fetch]
  | .pipe => [.done]
  | .fetch => [.deliver, .synth]
  | .deliver => [.done, .recv]
  | .synth => [.done]
  | .done => [.done]

theorem next_state_mem (env : Env σ) (s : Session σ) :
    (next env s).ctx.state ∈ successors s.ctx.state := by
  cases h : s.ctx.state with
  | recv =>
    obtain ⟨_, _, _, _, state, heq, hstate, _⟩ := next_recv env h
    rw [heq]
    rcases hstate with rfl | rfl | rfl | rfl <;> simp [successors]
  | lookup =>
    obtain ⟨_, _, state, _, heq, _, hstate, _⟩ := next_lookup env h
    rw [heq]
    rcases hstate with rfl | rfl | rfl | rfl | ⟨rfl, _⟩ <;> simp [successors]
  | pass | miss =>
    obtain ⟨_, _, _, heq, _⟩ := next_toFetch (s := s) env (by simp [h])
    simp [heq, successors]
  | pipe => simp [next_pipe h, successors]
  | fetch =>
    rw [next_fetch h]
    split <;> simp [successors]
  | deliver =>
    obtain ⟨_, _, _, _, _, _, state, _, heq, hstate, _⟩ := next_deliver env h
    rw [heq]
    rcases hstate with ⟨rfl, _⟩ | ⟨rfl, _⟩ <;> simp [successors]
  | synth =>
    obtain ⟨_, _, _, _, _, heq, _⟩ := next_synth env h
    simp [heq, successors]
  | done => simp [next_done h, h, successors]

theorem run_state_mem (env : Env σ) (s : Session σ) (n : Nat) :
    (run env s (n + 1)).ctx.state ∈ successors (run env s n).ctx.state := by
  rw [run_succ]
  exact next_state_mem env (run env s n)

theorem run_state_pred {state : RequestState} (h : (run env s (n + 1)).ctx.state = state) :
    state ∈ successors (run env s n).ctx.state := h ▸ run_state_mem env s n

theorem run_of_done {m : Nat} (h : (run env s n).ctx.state = .done) (hnm : n ≤ m) :
    run env s m = run env s n :=
  Lib.iterate_of_done (fun _ hd => (next_done hd).1) h hnm

theorem run_done {m : Nat} (h : (run env s n).ctx.state = .done) (hnm : n ≤ m) :
    (run env s m).ctx.state = .done := by
  rw [run_of_done h hnm]
  exact h

theorem handleRequest_eq_some {after : Session σ} : handleRequest env n s = some (answer, after) ↔
      (run env s n).ctx.state = .done ∧ (run env s n).result = answer ∧ run env s n = after := by
  rw [handleRequest]
  split
  · rename_i hdone
    simp [hdone]
  · rename_i hnot
    simp [hnot]

theorem handleRequest_of_le {m : Nat}
    {after : Session σ} (h : handleRequest env n s = some (answer, after)) (hle : n ≤ m) :
    handleRequest env m s = some (answer, run env s m) := by
  obtain ⟨hdone, hanswer, _⟩ := handleRequest_eq_some.mp h
  refine handleRequest_eq_some.mpr ⟨run_done hdone hle, ?_, rfl⟩
  rw [run_of_done hdone hle]
  exact hanswer

/-- Rounds left to `Done` without a restart, at most. -/
def stateRank : RequestState → Nat
  | .recv => 6
  | .lookup => 5
  | .pass => 4
  | .miss => 4
  | .fetch => 3
  | .deliver => 2
  | .synth => 1
  | .pipe => 1
  | .done => 0

theorem stateRank_lt {state state' : RequestState} (h : state' ∈ successors state)
    (hdone : state ≠ .done) (hrecv : state' ≠ .recv) : stateRank state' < stateRank state := by
  cases state <;> cases state' <;> simp_all [successors, stateRank]

/-! ## The subroutines of a state -/

def Event.sub? : Event → Option VclSub
  | .vcl sub _ _ => some sub
  | _ => none

/-- The subroutines one round of the loop runs, in order. -/
def calls (env : Env σ) (s : Session σ) : List VclSub := (events env s).filterMap Event.sub?

variable {result : VclExecResult} {after : VclContext} {sub : VclSub}

open Event

theorem mem_calls : sub ∈ calls env s ↔ ∃ result after, .vcl sub result after ∈ events env s := by
  simp only [calls, List.mem_filterMap]
  constructor
  · intro h
    obtain ⟨e, he, hsub⟩ := h
    cases e with
    | vcl sub' result after =>
      obtain rfl : sub' = sub := by simpa [sub?] using hsub
      exact ⟨result, after, he⟩
    | _ => simp [sub?] at hsub
  · intro h
    obtain ⟨result, after, he⟩ := h
    exact ⟨_, he, rfl⟩

/-- The subroutines a state runs, in order, if it runs all it can. -/
def subsOf : RequestState → List VclSub
  | .recv => [.recv]
  | .lookup => [.hit, .miss]
  | .pass => [.pass]
  | .miss => [.miss]
  | .pipe => []
  | .fetch => [.backendFetch, .backendResponse]
  | .deliver => [.deliver]
  | .synth => [.synth]
  | .done => []

variable (tick : Nat) (ctx : RequestContext) {cache : CacheEngine σ}

theorem stateRecv_calls :
    (stateRecv env tick ctx).2.filterMap sub? <+ [.recv] := by
  unfold stateRecv
  cases env.execSubroutine tick .recv _ <;> simp [sub?]

theorem answerLookup_calls (result : CacheLookupResult) :
    (answerLookup env tick ctx result).2.filterMap sub? <+ [.hit, .miss] := by
  unfold answerLookup
  cases result with
  | hit oc =>
    dsimp only
    cases env.execSubroutine tick .hit _ <;> simp [sub?]
  | miss =>
    cases env.execSubroutine tick .miss _ <;> simp [sub?]
  | _ => simp

theorem runVclSub_calls (sub : VclSub) (tick : Nat) (ctx : RequestContext) :
    (runVclSub sub env tick ctx).2.filterMap sub? <+ [sub] := by
  unfold runVclSub
  cases env.execSubroutine tick sub _ <;> simp [sub?]

theorem receiveResponse_calls (cache : CacheEngine σ)
    (bereq beresp : HttpMessage) (body : Option (List UInt8)) :
    (receiveResponse env tick ctx cache bereq beresp body).2.2.filterMap sub? <+
      [.backendResponse] := by
  have hstored : ∀ ctx beresp,
      (storeResponse env tick ctx cache beresp body).2.filterMap sub? = [] := by
    intro ctx beresp
    rw [List.filterMap_eq_nil_iff]
    intro e he
    obtain ⟨_, _, _, rfl⟩ := storeResponse_events he
    rfl
  unfold receiveResponse
  split
  · simp [sub?]
  · cases env.execSubroutine tick .backendResponse _ <;> simp [sub?, hstored]

theorem stateFetch_calls (cache : CacheEngine σ) :
    (stateFetch env tick ctx cache).2.2.filterMap sub? <+ [.backendFetch, .backendResponse] := by
  have hask : ∀ ctx addr bereq,
      (askBackend env tick ctx cache addr bereq).2.2.filterMap sub? <+
        [.backendResponse] := by
    intro ctx addr bereq
    unfold askBackend
    split
    · simp [sub?]
    · exact receiveResponse_calls tick _ cache bereq _ _
  unfold stateFetch
  split
  · simp
  dsimp only
  split
  · simp [sub?]
  · exact (hask _ _ _).cons_cons _
  · exact (hask _ _ _).cons _

theorem stateDeliver_calls :
    (stateDeliver env tick ctx).2.filterMap sub? <+ [.deliver] := by
  unfold stateDeliver
  dsimp only
  split
  · simp
  · split <;> simp [sub?]

theorem stateSynth_calls :
    (stateSynth env tick ctx).2.filterMap sub? <+ [.synth] := by
  unfold stateSynth
  dsimp only
  split
  · simp
  · split <;> simp [sub?]

theorem calls_sublist (env : Env σ) (s : Session σ) : calls env s <+ subsOf s.ctx.state := by
  unfold calls events loopStep
  cases h : s.ctx.state with
  | recv => exact stateRecv_calls s.tick s.ctx
  | lookup => exact answerLookup_calls s.tick _ _
  | pass => exact runVclSub_calls .pass s.tick _
  | miss => exact runVclSub_calls .miss s.tick _
  | pipe => simp
  | fetch => exact stateFetch_calls s.tick s.ctx s.cache
  | deliver => exact stateDeliver_calls s.tick s.ctx
  | synth => exact stateSynth_calls s.tick s.ctx
  | done => simp
theorem mem_subsOf (h : .vcl sub result after ∈ events env s) : sub ∈ subsOf s.ctx.state :=
  (calls_sublist env s).mem (mem_calls.mpr ⟨result, after, h⟩)

theorem exec_of_mem_receiveResponse {tick : Nat} {ctx : RequestContext}
    {bereq beresp : HttpMessage} {body : Option (List UInt8)}
    (h : .vcl sub result after ∈ (receiveResponse env tick ctx cache bereq beresp body).2.2) :
    ∃ vclCtx, env.execSubroutine tick sub vclCtx = some (result, after) := by
  have hstored : ∀ ctx beresp body,
      .vcl sub result after ∉ (storeResponse env tick ctx cache beresp body).2 := by
    intro ctx beresp body hmem
    obtain ⟨_, _, _, he⟩ := storeResponse_events hmem
    cases he
  unfold receiveResponse at h
  split at h
  · grind
  have hcall : env.execSubroutine tick .backendResponse
      (env.vclContext ctx .default bereq beresp) = some (result, after) ∧
      .backendResponse = sub := by
    simpa [hstored] using h
  obtain ⟨hcall, rfl⟩ := hcall
  exact ⟨_, hcall⟩

theorem exec_of_mem_stateFetch {tick : Nat} {ctx : RequestContext}
    (h : .vcl sub result after ∈ (stateFetch env tick ctx cache).2.2) :
    ∃ vclCtx, env.execSubroutine tick sub vclCtx = some (result, after) := by
  have hask : ∀ ctx addr bereq,
      .vcl sub result after ∈ (askBackend env tick ctx cache addr bereq).2.2 →
      ∃ vclCtx, env.execSubroutine tick sub vclCtx = some (result, after) := by
    intro ctx addr bereq hmem
    unfold askBackend at hmem
    split at hmem
    · simp at hmem
    · simp only [List.mem_cons, reduceCtorEq, false_or] at hmem
      exact exec_of_mem_receiveResponse hmem
  unfold stateFetch at h
  grind

theorem exec_of_mem (h : .vcl sub result after ∈ events env s) :
    ∃ vclCtx, env.execSubroutine s.tick sub vclCtx = some (result, after) := by
  unfold events loopStep at h
  cases hstate : s.ctx.state with
  | recv =>
    simp only [hstate, stateRecv] at h
    grind
  | lookup =>
    simp only [hstate, stateLookup, answerLookup] at h
    grind
  | pass =>
    simp only [hstate, runVclPass, runVclSub] at h
    grind
  | miss =>
    simp only [hstate, runVclMiss, runVclSub] at h
    grind
  | pipe => simp [hstate] at h
  | fetch =>
    simp only [hstate] at h
    exact exec_of_mem_stateFetch h
  | deliver =>
    simp only [hstate, stateDeliver] at h
    grind
  | synth =>
    simp only [hstate, stateSynth] at h
    grind
  | done => simp [hstate] at h
/-! ## Facts of every run -/

theorem next_noVcl_vclAction (hvcl : env.vcl = none) (h : s.ctx.vclAction ≠ some .restart) :
    (next env s).ctx.vclAction ≠ some .restart := by
  cases hstate : s.ctx.state with
  | recv => simp [next, loopStep, hstate, stateRecv_noVcl hvcl, RequestFsm.step]
  | lookup =>
    simp only [next, loopStep, hstate, stateLookup, answerLookup_noVcl hvcl, RequestFsm.step]
    split <;> simp
  | pass => simpa [next, loopStep, hstate, runVclPass, runVclSub_noVcl hvcl, RequestFsm.step]
  | miss => simpa [next, loopStep, hstate, runVclMiss, runVclSub_noVcl hvcl, RequestFsm.step]
  | pipe => simpa [next_pipe hstate]
  | fetch =>
    rw [next_fetch hstate]
    rcases (stateFetch_keeps env s.tick s.ctx s.cache).2.1 with haction | ⟨haction, _⟩
    · simp [haction]
    · simpa [haction]
  | deliver =>
    obtain ⟨response, respBody, hfin⟩ := finishDeliver_spec env { s.ctx with respBody := none }
      (buildResponse s.ctx).1 (buildResponse s.ctx).2
    simp only [next, loopStep, hstate, stateDeliver_noVcl hvcl]
    simp only [hstate] at hfin
    rw [hfin]
    simp [RequestFsm.step, h]
  | synth => simpa [next, loopStep, hstate, stateSynth_noVcl_vclAction hvcl]
  | done => simpa [next_done hstate]

/-- The restart counter is in bounds, there is no response before the end and
no synth status before `Synth`. -/
structure Pending (env : Env σ) (ctx : RequestContext) : Prop where
  restarts : ctx.restarts ≤ ctx.maxRestarts
  response : ctx.state ≠ .done → ctx.response = none
  synthStatus : ctx.state ≠ .synth → ctx.state ≠ .done → ctx.synthStatus = none
  action : env.vcl = none → ctx.vclAction ≠ some .restart

theorem pending_start (env : Env σ) (cache : CacheEngine σ) (tick : Nat) (request : HttpMessage)
    (body : Option (List UInt8)) : Pending env (Session.start cache tick request body).ctx :=
  ⟨Nat.zero_le _, fun _ => rfl, fun _ _ => rfl, fun _ => by simp [Session.start, RequestContext.new]⟩

theorem Pending.next (h : Pending env s.ctx) : Pending env (next env s).ctx := by
  have haction : env.vcl = none → (VarahaCache.next env s).ctx.vclAction ≠ some .restart :=
    fun hvcl => next_noVcl_vclAction hvcl (h.action hvcl)
  cases hstate : s.ctx.state with
  | recv =>
    obtain ⟨_, _, _, _, state, heq, _, hstatus, _⟩ := next_recv env hstate
    rw [heq] at haction ⊢
    refine ⟨h.restarts, fun _ => h.response (by simp [hstate]), fun hne _ => ?_, haction⟩
    exact (hstatus hne).trans (h.synthStatus (by simp [hstate]) (by simp [hstate]))
  | lookup =>
    obtain ⟨_, _, _, _, heq, _⟩ := next_lookup env hstate
    rw [heq] at haction ⊢
    exact ⟨h.restarts, fun _ => h.response (by simp [hstate]),
      fun _ _ => h.synthStatus (by simp [hstate]) (by simp [hstate]), haction⟩
  | pass | miss =>
    obtain ⟨_, _, _, heq, _⟩ := next_toFetch (s := s) env (by simp [hstate])
    rw [heq] at haction ⊢
    exact ⟨h.restarts, fun _ => h.response (by simp [hstate]),
      fun _ _ => h.synthStatus (by simp [hstate]) (by simp [hstate]), haction⟩
  | pipe =>
    rw [(next_pipe hstate).1] at haction ⊢
    exact ⟨h.restarts, fun hne => absurd rfl hne, fun _ hne => absurd rfl hne, haction⟩
  | fetch =>
    obtain ⟨hkeeps, hleads, _⟩ := stateFetch_keeps env s.tick s.ctx s.cache
    rw [next_fetch hstate] at haction ⊢
    refine ⟨?_, fun _ => hkeeps.response.trans (h.response (by simp [hstate])), ?_, haction⟩
    · rw [hkeeps.restarts, hkeeps.maxRestarts]
      exact h.restarts
    -- not in `Synth` means that the fetch did not set a status
    intro hne _
    rcases hleads with hsynth | ⟨_, hstatus, _⟩
    · simp [hsynth] at hne
    · exact hstatus.trans (h.synthStatus (by simp [hstate]) (by simp [hstate]))
  | deliver =>
    obtain ⟨_, _, _, _, _, _, state, _, heq, hcases, _, hresp⟩ := next_deliver env hstate
    rw [heq] at haction ⊢
    refine ⟨?_, ?_, fun _ _ => h.synthStatus (by simp [hstate]) (by simp [hstate]), haction⟩
    · have := h.restarts
      dsimp only
      omega
    intro hne
    rcases hcases with ⟨rfl, _⟩ | ⟨rfl, _⟩
    · exact absurd rfl hne
    -- back in `Recv`: the restart came before a response was set
    · rcases hresp with ⟨hresp, _⟩ | ⟨_, _, hstale⟩
      · exact hresp.trans (h.response (by simp [hstate]))
      · exact absurd (hstale rfl).2 (h.action (hstale rfl).1)
  | synth =>
    obtain ⟨_, _, _, _, _, heq, hrestarts, _⟩ := next_synth env hstate
    rw [heq] at haction ⊢
    refine ⟨?_, fun hne => absurd rfl hne, fun _ hne => absurd rfl hne, haction⟩
    have := h.restarts
    dsimp only
    omega
  | done =>
    rw [(next_done hstate).1]
    exact h

theorem pending_run (env : Env σ) (cache : CacheEngine σ) (tick : Nat)
    (request : HttpMessage) (body : Option (List UInt8)) (n : Nat) :
    Pending env (run env (Session.start cache tick request body) n).ctx := by
  induction n with
  | zero => exact pending_start env cache tick request body
  | succ n ih =>
    rw [run_succ]
    exact ih.next

/-! ## A fixed setting -/

def scripted (answer : VclSub → VclExecResult) : VclInterpreter :=
  fun _ sub vclCtx => (answer sub, vclCtx)

theorem result_of_scripted {answer : VclSub → VclExecResult}
    (hvcl : env.vcl = some (scripted answer))
    (h : .vcl sub result after ∈ events env s) : result = answer sub := by
  obtain ⟨vclCtx, hexec⟩ := exec_of_mem h
  simp only [Env.execSubroutine, hvcl, scripted, Option.map_some, Option.some.injEq,
    Prod.mk.injEq] at hexec
  exact hexec.1.symm

/-- A backend that always answers the same, one digest for all, and a clock
that stands. -/
def fixedEnv (vcl : Option VclInterpreter) (now : VtimReal)
    (response : HttpMessage × Option (List UInt8)) : Env Unit where
  vcl := vcl
  connInfo := ⟨⟨.localhost, 4000⟩, ⟨.localhost, 80⟩, false⟩
  backendAddr := some ⟨.localhost, 8080⟩
  stevedore := .unlimited
  sendBackendRequest _ _ _ := .ok response
  now _ := now
  sha256 _ := CacheEngine.digestZero
  compressGzip _ := none
  decompressGzip _ := none
  fromUtf8Lossy _ := ""

def getRoot : HttpMessage := .newRequest .get "/" .http11

def warmCache : CacheEngine Unit := (CacheEngine.run .unlimited () 10 CacheEngine.oneInsert).2

end VarahaCache
