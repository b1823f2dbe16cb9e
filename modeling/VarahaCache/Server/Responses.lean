import VarahaCache.Server.Rounds

/-!
# The response at the end

A request that is `Done` should hold a response that `Deliver` or `Synth`
built in its last round. `answered_iff` says when. Both exceptions are
restarts: one that `vcl_deliver` asks for when the limit is reached, and EVERY
one that `vcl_synth` asks for below the limit, because the loop overwrites the
state `Synth` has just set.
-/

namespace VarahaCache

variable {σ : Type} {env : Env σ} {s : Session σ} {m : ℕ}

def SynthRestarts (env : Env σ) (s : Session σ) : Prop :=
  ∃ after, .vcl .synth (.action .restart) after ∈ events env s

def BelowLimit (s : Session σ) : Prop := s.ctx.restarts < s.ctx.maxRestarts

/-- The response held in step `m` was built in step `n` of the same round, in
`Deliver` or `Synth`. -/
structure BuiltIn (env : Env σ) (s : Session σ) (n m : ℕ) : Prop where
  before : n < m
  round : SameRound env s n m
  state : (run env s n).ctx.state = .deliver ∨ (run env s n).ctx.state = .synth
  unset : (run env s n).ctx.response = none
  built : (run env s (n + 1)).ctx.response ≠ none
  kept : (run env s m).ctx.response = (run env s (n + 1)).ctx.response

/-- A request that is done has a response of its last round, and a restart
below the limit starts a new round. -/
structure Answered (env : Env σ) (s : Session σ) : Prop where
  real : ∀ m, (run env s m).ctx.state = .done → ∃ n, BuiltIn env s n m
  restarted : ∀ n, DeliverRestarts env (run env s n) ∨ SynthRestarts env (run env s n) →
    BelowLimit (run env s n) → (run env s (n + 1)).ctx.state = .recv

theorem Answered.response_ne_none (h : Answered env s)
    (hdone : (run env s m).ctx.state = .done) : (run env s m).ctx.response ≠ none := by
  obtain ⟨n, hbuilt⟩ := h.real m hdone
  rw [hbuilt.kept]
  exact hbuilt.built

/-! ## The last step -/

theorem exists_last_step (hstart : s.ctx.state = .recv) (hm : (run env s m).ctx.state = .done) :
    ∃ n < m, (run env s n).ctx.state ≠ .done ∧ (run env s (n + 1)).ctx.state = .done := by
  induction m with
  | zero =>
    rw [run_zero, hstart] at hm
    cases hm
  | succ m ih =>
    by_cases hdone : (run env s m).ctx.state = .done
    · obtain ⟨n, hn, hlast⟩ := ih hdone
      exact ⟨n, by omega, hlast⟩
    · exact ⟨m, by omega, hdone, hm⟩

theorem last_state (hpipe : ∀ n after, .vcl .recv (.action .pipe) after ∉ events env (run env s n))
    (hstart : s.ctx.state = .recv) {n : ℕ} (hn : (run env s n).ctx.state ≠ .done)
    (hdone : (run env s (n + 1)).ctx.state = .done) :
    (run env s n).ctx.state = .deliver ∨ (run env s n).ctx.state = .synth := by
  have hpred := run_state_pred hdone
  have hno : (run env s n).ctx.state ≠ .pipe := by
    intro hstate
    cases n with
    | zero =>
      rw [run_zero, hstart] at hstate
      cases hstate
    | succ n =>
      have hrecv : (run env s n).ctx.state = .recv := by
        have h := run_state_pred hstate
        revert h
        cases (run env s n).ctx.state <;> simp [successors]
      obtain ⟨_, _, _, _, state, heq, _, _, _, hcall⟩ := next_recv env hrecv
      rw [run_succ, heq] at hstate
      obtain ⟨after, hmem⟩ := hcall hstate
      exact hpipe n after hmem
  revert hpred hno hn
  cases (run env s n).ctx.state <;> simp [successors]

theorem response_of_synth (hp : Pending env s.ctx) (hstate : s.ctx.state = .synth) :
    (next env s).ctx.response ≠ none ↔ ¬ (SynthRestarts env s ∧ BelowLimit s) := by
  obtain ⟨_, _, _, _, _, heq, _, _, hresp⟩ := next_synth env hstate
  rw [heq]
  rcases hresp with ⟨hsame, hbelow, after, hcall⟩ | ⟨hsome, hno⟩
  · refine iff_of_false ?_ fun h => h ⟨⟨after, hcall⟩, hbelow⟩
    have hnone : s.ctx.response = none := hp.response (by simp [hstate])
    exact fun h => h (hsame.trans hnone)
  refine iff_of_true hsome ?_
  intro h
  obtain ⟨⟨after, hcall⟩, hbelow⟩ := h
  exact hno hbelow after hcall

theorem recv_of_deliverRestarts (hstate : s.ctx.state = .deliver) (hr : DeliverRestarts env s)
    (hbelow : BelowLimit s) : (next env s).ctx.state = .recv := by
  obtain ⟨after, hcall⟩ := hr
  obtain ⟨_, _, _, _, _, _, state, _, heq, _, _, hresp⟩ := next_deliver env hstate
  rw [heq]
  rcases hresp with ⟨_, hback, _⟩ | ⟨_, hno, _⟩
  · exact hback hbelow
  · exact absurd hcall (hno after)

theorem state_of_deliverRestarts (h : DeliverRestarts env s) : s.ctx.state = .deliver := by
  obtain ⟨after, hcall⟩ := h
  have hmem := mem_subsOf hcall
  revert hmem
  cases s.ctx.state <;> simp [subsOf]

theorem state_of_synthRestarts (h : SynthRestarts env s) : s.ctx.state = .synth := by
  obtain ⟨after, hcall⟩ := h
  have hmem := mem_subsOf hcall
  revert hmem
  cases s.ctx.state <;> simp [subsOf]

theorem done_of_deliverRestarts (hp : Pending env s.ctx) (hr : DeliverRestarts env s)
    (hlimit : ¬ BelowLimit s) :
    (next env s).ctx.state = .done ∧ (next env s).ctx.response = none := by
  have hstate := state_of_deliverRestarts hr
  have hnone : (next env s).ctx.response = none := by
    by_contra hsome
    exact (response_ne_none_iff hp hstate).mp hsome hr
  refine ⟨?_, hnone⟩
  obtain ⟨_, _, _, _, _, _, state, _, heq, hcases, _⟩ := next_deliver env hstate
  rw [heq]
  rcases hcases with ⟨hdone, _⟩ | ⟨_, _, hlt⟩
  · exact hdone
  · exact absurd hlt hlimit

/-! ## The result -/

/-- **When the request gets a real response.** In a run in which `vcl_recv`
never pipes, the loop keeps the promise exactly if every restart that
`vcl_deliver` asks for is below the limit and none that `vcl_synth` asks
for is. -/
theorem answered_iff (env : Env σ) (cache : CacheEngine σ) (tick : ℕ) (request : HttpMessage)
    (body : Option (List UInt8))
    (hpipe : ∀ n after, .vcl .recv (.action .pipe) after ∉
      events env (run env (Session.start cache tick request body) n)) :
    let s := Session.start cache tick request body
    Answered env s ↔
      ∀ n, (DeliverRestarts env (run env s n) → BelowLimit (run env s n)) ∧
        (SynthRestarts env (run env s n) → ¬ BelowLimit (run env s n)) := by
  intro s
  have hp : ∀ n, Pending env (run env s n).ctx := pending_run env cache tick request body
  constructor
  · intro h n
    refine ⟨?_, ?_⟩
    · intro hr
      by_contra hlimit
      obtain ⟨hdone, hnone⟩ := done_of_deliverRestarts (hp n) hr hlimit
      rw [← run_succ] at hdone hnone
      exact h.response_ne_none hdone hnone
    intro hr hbelow
    have hrecv := h.restarted n (.inr hr) hbelow
    have hdone : (run env s (n + 1)).ctx.state = .done := by
      simpa [state_of_synthRestarts hr, successors] using run_state_mem env s n
    rw [hdone] at hrecv
    cases hrecv
  intro h
  refine ⟨?_, ?_⟩
  · intro m hm
    obtain ⟨n, hnm, hlast, hdone⟩ := exists_last_step rfl hm
    have hround : SameRound env s n m := ⟨hnm.le, fun k hk _ => by simp [run_done hdone hk]⟩
    have hstate := last_state hpipe rfl hlast hdone
    refine ⟨n, hnm, hround, hstate, (hp n).response hlast, ?_, ?_⟩
    · rw [run_succ]
      rcases hstate with hstate | hstate
      · -- a restart below the limit would not have led to `Done`
        rw [response_ne_none_iff (hp n) hstate]
        intro hr
        have hrecv := recv_of_deliverRestarts hstate hr ((h n).1 hr)
        rw [← run_succ, hdone] at hrecv
        cases hrecv
      · rw [response_of_synth (hp n) hstate]
        exact fun hr => (h n).2 hr.1 hr.2
    · rw [run_of_done hdone hnm]
  · intro n hr hbelow
    rcases hr with hr | hr
    · rw [run_succ]
      exact recv_of_deliverRestarts (state_of_deliverRestarts hr) hr hbelow
    · exact absurd hbelow ((h n).2 hr)

/-- A VCL that falls through everywhere: each request gets its response. -/
theorem answered_fallthrough :
    Answered (fixedEnv (some (scripted fun _ => .fallthrough)) 60 byeResponse)
      (Session.start (CacheEngine.new () 10) 0 getRoot none) := by
  refine (answered_iff (fixedEnv (some (scripted fun _ => .fallthrough)) 60 byeResponse)
    (CacheEngine.new () 10) 0 getRoot none ?_).mpr ?_
  · intro n after hcall
    cases result_of_scripted rfl hcall
  intro n
  constructor <;> rintro ⟨after, hcall⟩ <;> cases result_of_scripted rfl hcall

def synthRestarts : Env Unit := fixedEnv (some (scripted fun
    | .recv => .action .synth
    | .synth => .action .restart
    | _ => .fallthrough)) 60 byeResponse

def deliverRestarts : Env Unit := fixedEnv (some (scripted fun
    | .deliver => .action .restart
    | _ => .fallthrough)) 60 byeResponse

/-- `vcl_synth` asks for the first restart of four and the request is done
without a response; `vcl_deliver` asks for the fifth, likewise. -/
theorem restart_leaves_no_response : let s := Session.start (CacheEngine.new () 10) 0 getRoot none
    (SynthRestarts synthRestarts (run synthRestarts s 1) ∧
        BelowLimit (run synthRestarts s 1) ∧ (run synthRestarts s 2).ctx.state = .done ∧
        (run synthRestarts s 2).ctx.response = none ∧
        (run synthRestarts s 2).result.1.status = .internalServerError) ∧
      (DeliverRestarts deliverRestarts (run deliverRestarts s 16) ∧
        (run deliverRestarts s 17).ctx.state = .done ∧
        (run deliverRestarts s 17).ctx.response = none) ∧
      ¬ Answered synthRestarts s ∧ ¬ Answered deliverRestarts s := by
  intro s
  have hsynth : (run synthRestarts s 2).ctx.state = .done := by decide +kernel
  have hsynth' : (run synthRestarts s 2).ctx.response = none := by decide +kernel
  have hbelow : (run synthRestarts s 1).ctx.restarts < (run synthRestarts s 1).ctx.maxRestarts := by
    decide +kernel
  have hstatus : (run synthRestarts s 2).result.1.status = .internalServerError := by
    decide +kernel
  have hdeliver : (run deliverRestarts s 17).ctx.state = .done := by decide +kernel
  have hdeliver' : (run deliverRestarts s 17).ctx.response = none := by decide +kernel
  -- the calls follow from the missing responses
  have hcall : SynthRestarts synthRestarts (run synthRestarts s 1) := by
    by_contra hno
    have hsome := (response_of_synth (pending_run _ _ _ _ _ 1) (by decide +kernel)).mpr
      fun h => hno h.1
    rw [← run_succ] at hsome
    exact hsome hsynth'
  have hcall' : DeliverRestarts deliverRestarts (run deliverRestarts s 16) := by
    by_contra hno
    have hp : Pending deliverRestarts (run deliverRestarts s 16).ctx :=
      pending_run deliverRestarts _ 0 getRoot none 16
    have hnone : (next deliverRestarts (run deliverRestarts s 16)).ctx.response = none := by
      decide +kernel
    exact (response_ne_none_iff hp (by decide +kernel)).mpr hno hnone
  exact ⟨⟨hcall, hbelow, hsynth, hsynth', hstatus⟩,
    ⟨hcall', hdeliver, hdeliver'⟩, fun h => h.response_ne_none hsynth hsynth',
    fun h => h.response_ne_none hdeliver hdeliver'⟩

end VarahaCache
