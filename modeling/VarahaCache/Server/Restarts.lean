import VarahaCache.Server.Run

/-!
# Restarts and termination

A restart from `vcl_deliver` counts against `max_restarts`; one from `vcl_hit`
or `vcl_miss` takes the loop back to `Recv` without counting. A run in which
the subroutines of `Lookup` ask for no restart is done after a number of
rounds known in advance (`bounded_work`); another need not end
(`restart_forever`).
-/

namespace VarahaCache

open CacheEngine

variable {σ : Type} {env : Env σ} {s : Session σ}

def LookupQuiet (env : Env σ) (s : Session σ) : Prop :=
  s.ctx.state = .lookup → ∀ sub after, .vcl sub (.action .restart) after ∉ events env s

/-- Rounds left to `Done`, at most. -/
def work (ctx : RequestContext) : Nat := 5 * (ctx.maxRestarts - ctx.restarts) + stateRank ctx.state

theorem work_next (hp : Pending env s.ctx) (hq : LookupQuiet env s) :
    (s.ctx.state ≠ .done → work (next env s).ctx < work s.ctx) ∧
      (next env s).ctx.maxRestarts = s.ctx.maxRestarts ∧
      s.ctx.restarts + (if (next env s).ctx.state = .recv then 1 else 0) ≤
        (next env s).ctx.restarts := by
  have hle := hp.restarts
  cases hstate : s.ctx.state with
  | recv =>
    obtain ⟨_, _, _, _, state, heq, hcases, _⟩ := next_recv env hstate
    rw [heq]
    rcases hcases with rfl | rfl | rfl | rfl <;> simp [work, hstate, stateRank]
  | lookup =>
    obtain ⟨_, _, state, calls, heq, hevents, hcases, _⟩ := next_lookup env hstate
    rw [heq]
    rcases hcases with rfl | rfl | rfl | rfl | ⟨_, sub, after, hcall⟩
    · simp [work, hstate, stateRank]
    · simp [work, hstate, stateRank]
    · simp [work, hstate, stateRank]
    · simp [work, hstate, stateRank]
    · -- the restart nobody counts: what a quiet round excludes
      refine absurd ?_ (hq hstate sub after)
      rw [hevents]
      exact List.mem_cons_of_mem _ hcall
  | pass | miss =>
    obtain ⟨_, _, _, heq, _⟩ := next_toFetch (s := s) env (by simp [hstate])
    simp [heq, work, hstate, stateRank]
  | pipe => simp [next_pipe hstate, work, hstate, stateRank]
  | fetch =>
    have hkeeps := (stateFetch_keeps env s.tick s.ctx s.cache).1
    rw [next_fetch hstate]
    dsimp only [work]
    rw [hkeeps.restarts, hkeeps.maxRestarts, hstate]
    split <;> simp [stateRank]
  | deliver =>
    obtain ⟨_, _, _, _, _, _, state, restarts, heq, hcases, _⟩ := next_deliver env hstate
    rw [heq]
    rcases hcases with ⟨rfl, rfl⟩ | ⟨rfl, rfl, hlt⟩
    · simp [work, hstate, stateRank]
    simp only [work, hstate, stateRank]
    simp
    omega
  | synth =>
    obtain ⟨_, _, _, restarts, _, heq, hcases, _⟩ := next_synth env hstate
    rw [heq]
    simp only [work, hstate, stateRank]
    simp
    omega
  | done => simp [next_done hstate, hstate]

theorem count_recv_le (hp : ∀ n, Pending env (run env s n).ctx)
    (hq : ∀ n, LookupQuiet env (run env s n)) (n : Nat) :
    Nat.count (fun k => (run env s k).ctx.state = .recv) n +
        (if (run env s n).ctx.state = .recv then 1 else 0) ≤ (run env s n).ctx.restarts + 1 ∧
      (run env s n).ctx.maxRestarts = s.ctx.maxRestarts := by
  induction n with
  | zero =>
    refine ⟨?_, rfl⟩
    rw [Nat.count_zero]
    split <;> omega
  | succ n ih =>
    obtain ⟨hcount, hmax⟩ := ih
    obtain ⟨_, hkeep, hpaid⟩ := work_next (hp n) (hq n)
    rw [Nat.count_succ, run_succ]
    exact ⟨by omega, hkeep.trans hmax⟩

/-- **Bounded work**: if no subroutine that `Lookup` runs asks for a
restart, the loop visits `Recv` at most `max_restarts + 1` times and
reaches `Done`. -/
theorem bounded_work (env : Env σ) (cache : CacheEngine σ) (tick : Nat) (request : HttpMessage)
    (body : Option (List UInt8))
    (hq : ∀ n, LookupQuiet env (run env (Session.start cache tick request body) n)) :
    let s := Session.start cache tick request body
    (∀ n, Nat.count (fun k => (run env s k).ctx.state = .recv) n ≤ s.ctx.maxRestarts + 1) ∧
      ∃ n ≤ 5 * s.ctx.maxRestarts + 6, (run env s n).ctx.state = .done := by
  intro s
  refine ⟨fun n => ?_, ?_⟩
  · have hp : ∀ n, Pending env (run env s n).ctx := pending_run env cache tick request body
    obtain ⟨hcount, hmax⟩ := count_recv_le (s := s) hp hq n
    have hle := (hp n).restarts
    omega
  -- the invariant speaks about the rest of the run, so that it is kept
  obtain ⟨n, hn, hdone⟩ := Lib.exists_iterate_done (next env) (fun s => s.ctx.state = .done)
    (fun s => Pending env s.ctx ∧ ∀ n, LookupQuiet env (run env s n))
    (fun s => work s.ctx)
    (fun s ⟨hp, hq⟩ => ⟨hp.next, fun n => hq (n + 1)⟩)
    (fun s ⟨hp, hq⟩ => (work_next hp (hq 0)).1)
    s ⟨pending_start env cache tick request body, hq⟩
  exact ⟨n, hn, hdone⟩

theorem lookupQuiet_noVcl (hvcl : env.vcl = none) : LookupQuiet env s := by
  intro hstate sub after hcall
  simp [events, loopStep_lookup env hstate, stateLookup, answerLookup_noVcl hvcl] at hcall

theorem bounded_work_noVcl : let env := fixedEnv none 60 (.newResponse .ok .http11, none)
    let s := Session.start warmCache 0 getRoot none
    (∀ n, Nat.count (fun k => (run env s k).ctx.state = .recv) n ≤ 5) ∧
      ∃ n ≤ 26, (run env s n).ctx.state = .done :=
  bounded_work _ _ _ _ _ fun _ => lookupQuiet_noVcl rfl

/-! ## A restart that is not counted -/

def hitRestarts : Env Unit := fixedEnv (some (scripted fun
    | .hit => .action .restart
    | _ => .fallthrough)) 60 (.newResponse .ok .http11, none)

theorem hitRestarts_two_rounds {s : Session Unit} {o : ObjCore} (hstate : s.ctx.state = .recv)
    (hcache : s.cache.variants digestZero = [o]) (hhit : scanVariants 60 none [o] none = .hit o) :
    (next hitRestarts (next hitRestarts s)).ctx.state = .recv ∧
      (next hitRestarts (next hitRestarts s)).cache.variants digestZero = [o] := by
  have hrecv : (next hitRestarts s).ctx.state = .lookup ∧ (next hitRestarts s).cache = s.cache := by
    simp [next, loopStep_recv _ hstate, stateRecv, hitRestarts, fixedEnv, Env.execSubroutine,
      scripted, RequestFsm.step, RequestFsm.handleRecv, hstate]
  obtain ⟨hlookup, hsame⟩ := hrecv
  have hfound : (s.cache.lookup 60 digestZero none).1 = .hit o := by
    rw [lookup_fst, hcache, hhit]
  have hkept : (s.cache.lookup 60 digestZero none).2.variants digestZero = [o] := by
    rw [variants_lookup, hcache, hhit]
    rfl
  generalize next hitRestarts s = t at hlookup hsame ⊢
  have hstep : next hitRestarts t = ⟨RequestFsm.step (answerLookup hitRestarts t.tick
          { t.ctx with digest := some digestZero }
          (t.cache.lookup 60 digestZero none).1).1,
        (t.cache.lookup 60 digestZero none).2, t.tick + 1⟩ := by
    rw [next, loopStep_lookup _ hlookup]
    rfl
  rw [hstep, hsame, hfound]
  refine ⟨?_, hkept⟩
  rw [RequestFsm.step_lookup (by exact hlookup)]
  rfl

/-- **A request can be restarted forever**: with an object that `vcl_hit`
restarts on, every second round is a visit of `Recv`. -/
theorem restart_forever : let s := Session.start warmCache 0 getRoot none
    (∀ n, (run hitRestarts s (2 * n)).ctx.state = .recv) ∧
      ∀ n, (run hitRestarts s n).ctx.state ≠ .done := by
  intro s
  have hinv : ∀ n, (run hitRestarts s (2 * n)).ctx.state = .recv ∧
      (run hitRestarts s (2 * n)).cache.variants digestZero =
        [newObject 0 0 digestZero [104, 105] .default none] := by
    intro n
    induction n with
    | zero => decide +kernel
    | succ n ih =>
      rw [show 2 * (n + 1) = 2 * n + 1 + 1 from rfl, run_succ, run_succ]
      exact hitRestarts_two_rounds ih.1 ih.2 (by decide +kernel)
  refine ⟨fun n => (hinv n).1, ?_⟩
  intro n hdone
  have := run_done hdone (show n ≤ 2 * n by omega)
  rw [(hinv n).1] at this
  cases this

end VarahaCache
