import VarahaCache.Server.Rounds

/-!
# How often a subroutine runs in a round

Each state runs each of its subroutines at most once, and a round visits
each state at most once. But `vcl_miss` has TWO states: `Lookup` runs it on
a miss and `Miss` runs it again. `subroutines_once_iff` says that this is
the only way a subroutine runs twice in a round.
-/

namespace VarahaCache

variable {σ : Type} {env : Env σ} {s : Session σ}

/-- Without a visit of `Recv` in between, the subroutine does not run twice.
-/
def OncePerRound (env : Env σ) (s : Session σ) (sub : VclSub) : Prop :=
  ∀ m n, SameRound env s m n → ∑ k ∈ Finset.Icc m n, (calls env (run env s k)).count sub ≤ 1

/-- The answers of `vcl_miss` that take a lookup elsewhere than to `Miss`. -/
def LeavesMiss : VclExecResult → Prop
  | .action a => a = .deliver ∨ a = .ok ∨ a = .pass ∨ a = .synth ∨ a = .restart
  | .fallthrough => False
  | .error _ => False

/-! ## Within one state -/

theorem count_calls_le_one (env : Env σ) (s : Session σ) (sub : VclSub) :
    (calls env s).count sub ≤ 1 := by
  have hnodup : (subsOf s.ctx.state).Nodup := by cases s.ctx.state <;> decide
  exact ((calls_sublist env s).count_le sub).trans (List.nodup_iff_count_le_one.mp hnodup sub)

variable {result : VclExecResult} {ctx : RequestContext} {after : VclContext} {sub : VclSub}

theorem answerLookup_miss {tick : ℕ} {found : CacheLookupResult}
    (h : .vcl .miss result after ∈ (answerLookup env tick ctx found).2) :
    (answerLookup env tick ctx found).1.vclAction = actionOr none result := by
  unfold answerLookup at h ⊢
  cases found with
  | miss =>
    cases hcall : env.execSubroutine tick .miss
      (env.vclContext ctx .default (clientBereq ctx.request) .default) <;> grind
  | hit oc => grind
  | _ => simp at h

theorem handleLookup_eq_miss (h : ctx.vclAction = actionOr none result) :
    RequestFsm.handleLookup ctx = .miss ↔ ¬ LeavesMiss result := by
  unfold RequestFsm.handleLookup
  rw [h]
  cases result with
  | action a => cases a <;> simp [actionOr, convertAction, LeavesMiss]
  | fallthrough | error e => simp [actionOr, LeavesMiss]

theorem lookup_next_miss
    (hstate : s.ctx.state = .lookup) (h : .vcl .miss result after ∈ events env s) :
    (next env s).ctx.state = .miss ↔ ¬ LeavesMiss result := by
  obtain ⟨_, _, _, heq, _⟩ := stateLookup_spec env s.tick s.ctx s.cache
  have hkeeps : (stateLookup env s.tick s.ctx s.cache).1.state = .lookup := by
    rw [heq]
    exact hstate
  rw [events, loopStep_lookup env hstate] at h
  rw [next, loopStep_lookup env hstate, RequestFsm.step_lookup hkeeps]
  exact handleLookup_eq_miss (answerLookup_miss (by simpa [stateLookup] using h))

theorem miss_calls (hvcl : env.vcl ≠ none) (hstate : s.ctx.state = .miss) :
    .miss ∈ calls env s := by
  obtain ⟨vcl, hsome⟩ := Option.ne_none_iff_exists'.mp hvcl
  rw [mem_calls]
  simp [events, loopStep, hstate, runVclMiss, runVclSub, Env.execSubroutine, hsome]

/-! ## Within one round -/

theorem subsOf_inj {state state' : RequestState} (h : sub ∈ subsOf state)
    (h' : sub ∈ subsOf state') :
    state = state' ∨ (sub = .miss ∧ (state = .lookup ∧ state' = .miss ∨
      state = .miss ∧ state' = .lookup)) := by
  cases state <;> cases state' <;> cases sub <;> simp_all [subsOf]

theorem eq_of_calls {m n : ℕ} (hr : SameRound env s m n)
    (hm : sub ∈ calls env (run env s m)) (hn : sub ∈ calls env (run env s n)) :
    m = n ∨ (sub = .miss ∧ n = m + 1 ∧ (run env s m).ctx.state = .lookup ∧
      (run env s n).ctx.state = .miss) := by
  have hm' := (calls_sublist env _).mem hm
  have hn' := (calls_sublist env _).mem hn
  have hdone : (run env s m).ctx.state ≠ .done := by
    intro hdone
    simp [hdone, subsOf] at hm'
  rcases subsOf_inj hm' hn' with hsame | ⟨rfl, ⟨hl, hmiss⟩ | ⟨hmiss, hl⟩⟩
  · exact .inl (state_unique hr hsame hdone)
  · -- the step before `Miss` is the lookup of the round
    refine .inr ⟨rfl, ?_, hl, hmiss⟩
    cases n with
    | zero =>
      obtain rfl : m = 0 := Nat.le_zero.mp hr.1
      cases hl.symm.trans hmiss
    | succ n =>
      have hpred : (run env s n).ctx.state = .lookup := by
        have h := run_state_pred hmiss
        revert h
        cases (run env s n).ctx.state <;> simp [successors]
      have hne : m ≠ n + 1 := by
        rintro rfl
        simp [hl] at hmiss
      have hle := hr.1
      have hmn := state_unique (hr.of_le (by omega) (by omega)) (hl.trans hpred.symm) hdone
      omega
  · -- a lookup does not come after `Miss`
    have hne : m ≠ n := by
      rintro rfl
      simp [hl] at hmiss
    have hlt := stateRank_sameRound hr (lt_of_le_of_ne hr.1 hne) hdone
    simp [hl, hmiss, stateRank] at hlt

/-- **When the subroutines run once per round**: if `vcl_miss`, whenever
`Lookup` runs it, returns an action that leads elsewhere than to `Miss`. -/
theorem subroutines_once_iff (env : Env σ) (cache : CacheEngine σ) (tick : ℕ)
    (request : HttpMessage) (body : Option (List UInt8)) :
    let s := Session.start cache tick request body
    (∀ sub ∈ [.recv, .hit, .miss, .pass, .backendFetch, .backendResponse, .deliver],
        OncePerRound env s sub) ↔
      ∀ n result after, (run env s n).ctx.state = .lookup →
        .vcl .miss result after ∈ events env (run env s n) → LeavesMiss result := by
  intro s
  constructor
  · intro h n result after hstate hcall
    by_contra hmiss
    have hnext := (lookup_next_miss hstate hcall).mpr hmiss
    rw [← run_succ] at hnext
    have hvcl : env.vcl ≠ none := by
      intro hnone
      obtain ⟨_, hexec⟩ := exec_of_mem hcall
      simp [execSubroutine_noVcl hnone] at hexec
    have hround : SameRound env s n (n + 1) := (Lib.SameRound.refl n).succ (by simp [hnext])
    have honce := Finset.sum_le_one_iff.mp (h .miss (by simp) n (n + 1) hround) n (n + 1)
      (by simp) (by simp)
    have hfirst : (calls env (run env s n)).count .miss ≠ 0 := by
      rw [← Nat.pos_iff_ne_zero, List.count_pos_iff]
      exact mem_calls.mpr ⟨result, after, hcall⟩
    have hsecond : (calls env (run env s (n + 1))).count .miss ≠ 0 := by
      rw [← Nat.pos_iff_ne_zero, List.count_pos_iff]
      exact miss_calls hvcl hnext
    have hsame := (honce hfirst hsecond).1
    omega
  intro h sub _ m n hr
  -- two steps that run the subroutine, the earlier one first
  have huniq : ∀ i j, m ≤ i → i ≤ j → j ≤ n → sub ∈ calls env (run env s i) →
      sub ∈ calls env (run env s j) → i = j := by
    intro i j hi hij hj hcalli hcallj
    have hround : SameRound env s i j := ⟨hij, fun k hk hkj => hr.2 k (by omega) (by omega)⟩
    rcases eq_of_calls hround hcalli hcallj with hsame | ⟨rfl, rfl, hl, hmiss⟩
    · exact hsame
    obtain ⟨result, after, hcall⟩ := mem_calls.mp hcalli
    rw [run_succ, lookup_next_miss hl hcall] at hmiss
    exact absurd (h i result after hl hcall) hmiss
  refine Finset.sum_le_one_iff.mpr ?_
  intro i j hi hj hcalli hcallj
  rw [Finset.mem_Icc] at hi hj
  rw [← Nat.pos_iff_ne_zero, List.count_pos_iff] at hcalli hcallj
  refine ⟨?_, ?_⟩
  · rcases Nat.le_total i j with hij | hij
    · exact huniq i j hi.1 hij hj.2 hcalli hcallj
    · exact (huniq j i hj.1 hij hi.2 hcallj hcalli).symm
  have hle := count_calls_le_one env (run env s i) sub
  have hpos := List.count_pos_iff.mpr hcalli
  omega

/-- A miss under VCL that falls through everywhere runs `vcl_miss` in the
second round and in the third. -/
theorem miss_runs_twice : let env := fixedEnv (some (scripted fun _ => .fallthrough)) 60 byeResponse
    let s := Session.start (CacheEngine.new () 10) 0 getRoot none
    SameRound env s 1 2 ∧ calls env (run env s 1) = [.miss] ∧ calls env (run env s 2) = [.miss] ∧
      ¬ OncePerRound env s .miss := by
  intro env s
  have hlookup : calls env (run env s 1) = [.miss] := by decide +kernel
  have hmiss : calls env (run env s 2) = [.miss] := by decide +kernel
  have hround : SameRound env s 1 2 := (Lib.SameRound.refl 1).succ (by decide +kernel)
  refine ⟨hround, hlookup, hmiss, ?_⟩
  intro h
  have hle := h 1 2 hround
  rw [Finset.sum_Icc_succ_top (by omega), Finset.Icc_self, Finset.sum_singleton, hlookup,
    hmiss] at hle
  exact absurd hle (by decide)

end VarahaCache
