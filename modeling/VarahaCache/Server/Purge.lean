import VarahaCache.Server.Inserts

/-!
# Purging through VCL

`vcl_recv` may return `purge`. The state machine takes that for a lookup,
and nothing on the way calls the engine's own `purge`. What was stored for
the request is left alone unless the run gets rid of it by accident:
`purge_iff` lists the accidents.
-/

namespace VarahaCache

open CacheEngine

variable {σ : Type} {env : Env σ} {s : Session σ}

def PurgeAsked (env : Env σ) (s : Session σ) : Prop :=
  ∃ after, .vcl .recv (.action .purge) after ∈ events env s

/-- From step `m` on, whatever is called of the cache and whatever the time,
no lookup of the digest answers with an object stored before the request came.
-/
def Purged (env : Env σ) (s : Session σ) (m : ℕ) (d : Digest) : Prop :=
  ∀ o ∈ s.cache.variants d, ∀ calls now headers,
    let e := (Lib.record (step env.stevedore) (run env s m).cache calls).2
    (e.lookup now d headers).1 ≠ .hit o ∧ (e.lookup now d headers).1 ≠ .grace o

/-- A lookup of the digest that finds nothing to answer with, or an insertion
that makes room and chooses it. -/
def DropsDigest (env : Env σ) (s : Session σ) (d : Digest) : Prop :=
  (s.ctx.state = .lookup ∧ env.requestDigest s.ctx.request = d ∧ ¬ Answerable env s) ∨
    ((∃ digest body result, .insert digest body result ∈ events env s) ∧
      d ∈ (s.cache.enforceCapacity env.stevedore).1)

/-! ## The cache calls of a step -/

theorem not_answerable_iff (env : Env σ) (s : Session σ) :
    ¬ Answerable env s ↔ (cacheLookup env s).1 = .miss := by
  rw [cacheLookup_fst, scanVariants_miss_iff, Answerable]
  push Not
  rfl

theorem mem_lookupDrops {d digest : Digest} {result : CacheLookupResult} :
    d ∈ lookupDrops digest result ↔ digest = d ∧ result = .miss := by
  cases result <;> simp [lookupDrops, eq_comm]

/-- The cache calls of a step: none, or one that drops what the step is
said to drop. -/
theorem next_call (env : Env σ) (s : Session σ) :
    ((next env s).cache = s.cache ∧ ∀ d, ¬ DropsDigest env s d) ∨
      ∃ c, (next env s).cache = (s.cache.step env.stevedore c).2 ∧
        ∀ d, d ∈ dropped c.op (s.cache.step env.stevedore c).1 ↔ DropsDigest env s d := by
  by_cases hlookup : s.ctx.state = .lookup
  · -- a lookup drops its digest if it finds nothing
    right
    obtain ⟨_, _, _, _, heq, _⟩ := next_lookup env hlookup
    refine ⟨⟨env.now s.tick, .lookup (env.requestDigest s.ctx.request) none⟩, by rw [heq]; rfl, ?_⟩
    intro d
    have hnone : ¬ ∃ digest body result, .insert digest body result ∈ events env s := by
      intro h
      obtain ⟨_, _, _, h⟩ := h
      have hfetch := fetch_of_mem h (by simp) rfl
      rw [hlookup] at hfetch
      cases hfetch
    simp only [DropsDigest, hlookup, hnone, true_and, false_and, or_false]
    rw [not_answerable_iff]
    exact mem_lookupDrops
  by_cases hfetch : s.ctx.state = .fetch
  · rcases (stateFetch_inserts env s.tick s.ctx s.cache).2 with
      ⟨hsame, hnone⟩ | ⟨digest, body, ttlInfo, hinsert, hmem⟩
    · left
      rw [← events_fetch hfetch] at hnone
      refine ⟨by rw [next_fetch hfetch]; exact hsame, ?_⟩
      intro d h
      rcases h with ⟨h, _⟩ | ⟨⟨digest, body, result, h⟩, _⟩
      · exact hlookup h
      · exact hnone digest body result h
    right
    rw [← events_fetch hfetch] at hmem
    refine ⟨⟨env.now s.tick, .insert digest body ttlInfo none⟩, ?_, ?_⟩
    · rw [next_fetch hfetch]
      exact hinsert
    intro d
    have hsome : ∃ digest body result, .insert digest body result ∈ events env s :=
      ⟨_, _, _, hmem⟩
    simp only [DropsDigest, hlookup, hsome, true_and, false_and, false_or]
    rw [← insert_victims env.stevedore s.cache (env.now s.tick) digest body ttlInfo none]
    rfl
  · left
    obtain ⟨hquiet, hsame⟩ := next_cache hlookup fun h => absurd h hfetch
    refine ⟨hsame, ?_⟩
    intro d h
    rcases h with ⟨h, _⟩ | ⟨⟨_, _, _, h⟩, _⟩
    · exact hlookup h
    · cases (hquiet _ h).2

theorem next_variants (h : s.cache.Reached env.stevedore) (d : Digest) :
    (DropsDigest env s d → ∀ o, o.addr < s.cache.nextAddr → (next env s).cache.Gone d o) ∧
      (¬ DropsDigest env s d → s.cache.variants d <+: (next env s).cache.variants d) ∧
      ∀ o, s.cache.Gone d o → (next env s).cache.Gone d o := by
  rcases next_call env s with ⟨hsame, hno⟩ | ⟨c, hcall, hdrops⟩
  · rw [hsame]
    exact ⟨fun hd => absurd hd (hno d), fun _ => List.prefix_rfl, fun _ hgone => hgone⟩
  obtain ⟨hgone, hkept⟩ := step_variants env.stevedore h.inv.tracked c d
  rw [hcall, ← hdrops d]
  exact ⟨hgone, hkept, fun o ho => ho.step h.inv.tracked c⟩

/-! ## Whole runs -/

theorem run_variants (hcache : s.cache.Reached env.stevedore) (d : Digest) (m : ℕ) :
    ((∃ n < m, DropsDigest env (run env s n) d) ∧
        ∀ o ∈ s.cache.variants d, (run env s m).cache.Gone d o) ∨
      ((∀ n < m, ¬ DropsDigest env (run env s n) d) ∧
        s.cache.variants d <+: (run env s m).cache.variants d) := by
  induction m with
  | zero => exact .inr ⟨by simp, List.prefix_rfl⟩
  | succ m ih =>
    have hreached : (run env s m).cache.Reached env.stevedore := run_reached hcache m
    obtain ⟨hdrop, hkeep, hstays⟩ := next_variants hreached d
    rw [run_succ]
    rcases ih with ⟨⟨n, hn, hd⟩, hgone⟩ | ⟨hno, hinit⟩
    · exact .inl ⟨⟨n, by omega, hd⟩, fun o ho => hstays o (hgone o ho)⟩
    by_cases hd : DropsDigest env (run env s m) d
    · refine .inl ⟨⟨m, by omega, hd⟩, ?_⟩
      intro o ho
      exact hdrop hd o (hreached.addr_lt (hinit.subset ho))
    refine .inr ⟨?_, hinit.trans (hkeep hd)⟩
    intro n hn
    rcases Nat.lt_succ_iff_lt_or_eq.mp hn with hlt | rfl
    · exact hno n hlt
    · exact hd

theorem lookup_head {stv : Stevedore σ} {e : CacheEngine σ} (h : e.Reached stv) {d : Digest}
    {o : ObjCore} {rest : List ObjCore} (hv : e.variants d = o :: rest) :
    (e.lookup (o.tOrigin + o.ttl) d none).1 = .hit o := by
  have hflags := h.inv.unflagged d o (by simp [hv])
  rw [lookup_fst, scanVariants_eq, hv, List.find?_cons_of_pos]
  simpa using (fresh_none_iff hflags).mpr le_rfl

/-- **When `return(purge)` purges.** After `m` steps of a request whose
`vcl_recv` asked for a purge, nothing stored before under its host and URL
answers a later lookup EXACTLY when nothing was stored there, or one of the
steps dropped it: a lookup that found nothing to answer with, or an insertion
that made room. -/
theorem purge_iff (env : Env σ) (cache : CacheEngine σ) (hcache : cache.Reached env.stevedore)
    (tick : ℕ) (request : HttpMessage) (body : Option (List UInt8)) (m : ℕ) :
    let s := Session.start cache tick request body
    let d := env.requestDigest request
    (PurgeAsked env s → Purged env s m d) ↔
      (PurgeAsked env s → cache.variants d = [] ∨ ∃ n < m, DropsDigest env (run env s n) d) := by
  intro s d
  refine imp_congr_right fun _ => ?_
  have hreached : (run env s m).cache.Reached env.stevedore := run_reached hcache m
  constructor
  · intro hpurged
    by_contra hnot
    push Not at hnot
    obtain ⟨hstored, hno⟩ := hnot
    rcases run_variants (s := s) hcache d m with ⟨⟨n, hn, hd⟩, _⟩ | ⟨_, rest, hinit⟩
    · exact hno n hn hd
    -- the first of the old objects is still in front
    cases hv : cache.variants d with
    | nil => exact hstored hv
    | cons o old =>
      have hhead : (run env s m).cache.variants d = o :: (old ++ rest) := by
        rw [← hinit, show s.cache.variants d = o :: old from hv]
        rfl
      have ho : o ∈ s.cache.variants d := by simp [show s.cache.variants d = o :: old from hv]
      exact (hpurged o ho [] _ none).1 (lookup_head hreached hhead)
  · intro h o ho calls now headers
    have hgone : (run env s m).cache.Gone d o := by
      rcases run_variants (s := s) hcache d m with ⟨_, hgone⟩ | ⟨hno, _⟩
      · exact hgone o ho
      rcases h with hnil | ⟨n, hn, hd⟩
      · rw [show s.cache.variants d = [] from hnil] at ho
        cases ho
      · exact absurd hd (hno n hn)
    have habsent := (hgone.after hreached calls).absent
    dsimp only
    rw [lookup_fst]
    exact scanVariants_ne_of_notMem habsent

def recvPurges (now : VtimReal) : Env Unit := fixedEnv (some (scripted fun
    | .recv => .action .purge
    | _ => .fallthrough)) now byeResponse

/-- An object past its lifetime is dropped on the way. -/
theorem purge_of_lapsed :
    (run (recvPurges 1000) (Session.start warmCache 0 getRoot none) 5).ctx.state = .done ∧
      Purged (recvPurges 1000) (Session.start warmCache 0 getRoot none) 5
        digestZero := by
  refine ⟨by decide +kernel, ?_⟩
  refine (purge_iff (recvPurges 1000) warmCache ⟨(), 10, oneInsert, rfl⟩ 0 getRoot
    none 5).mpr (fun _ => .inr ⟨1, by omega, .inl ⟨by decide +kernel, rfl, ?_⟩⟩)
    ⟨_, List.mem_singleton.mpr rfl⟩
  rw [not_answerable_iff]
  decide +kernel

/-- `vcl_recv` asks for a purge, and the object answers the request itself and
the next lookup. -/
theorem purge_keeps_object : let env := recvPurges 60
    let s := Session.start warmCache 0 getRoot none
    let o := newObject 0 0 digestZero [104, 105] .default none
    PurgeAsked env s ∧ o ∈ warmCache.variants (env.requestDigest getRoot) ∧
      (run env s 3).ctx.state = .done ∧
      (run env s 3).result.1.getHeader "X-Cache" = some "HIT" ∧
      ((run env s 3).cache.lookup 61 (env.requestDigest getRoot) none).1 = .hit o ∧
      ¬ Purged env s 3 (env.requestDigest getRoot) := by
  intro env s o
  have hmem : o ∈ warmCache.variants (env.requestDigest getRoot) := by decide +kernel
  have hhit : ((run env s 3).cache.lookup 61 (env.requestDigest getRoot) none).1 = .hit o := by
    decide +kernel
  exact ⟨⟨_, List.mem_singleton.mpr rfl⟩, hmem, by decide +kernel, by decide +kernel, hhit,
    fun h => (h o hmem [] 61 none).1 hhit⟩

end VarahaCache
