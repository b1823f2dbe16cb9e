import VarahaCache.Cache.History

/-!
# Lookups and insertions of many threads

Threads call `CacheEngine::lookup` and `CacheEngine::insert` on one digest. An
operation on the object map or on the tracker is one step. A lookup that finds
nothing good lets the map go before it removes the digest: what another thread
inserts in between is removed with the rest.
-/

namespace VarahaCache

open Lib Vector

inductive EnginePhase
  | idle
  /-- A lookup has its answer and is about to touch the tracker. -/
  | touching
  /-- A lookup found nothing good, and is about to remove the digest from the
  map, then from the tracker. -/
  | removing
  | untracking
  /-- An insertion is about to push its object, then to tell the tracker, then
  the expiry queue. -/
  | pushing (oc : ObjCore)
  | tracking (oc : ObjCore)
  | queueing (oc : ObjCore)
deriving DecidableEq

/-- A thread begins a call or takes its next step in one; or time passes. -/
inductive EngineStep (T : Type)
  | lookup (t : T) (requestHeaders : Option HeaderMap)
  | insert (t : T) (body : List UInt8) (ttlInfo : TtlInfo)
  | next (t : T)
  | pass (elapsed : ℚ≥0)

/-- The engine, where each thread is, the time, and the objects completely
inserted. -/
structure EngineThreads (σ T : Type) where
  engine : CacheEngine σ
  phase : T → EnginePhase
  clock : VtimReal
  completed : List ObjCore

namespace EngineThreads

variable {σ T : Type}

def start (storage : σ) (maxObjects : ℕ) (clock : VtimReal) : EngineThreads σ T :=
  ⟨.new storage maxObjects, fun _ => .idle, clock, []⟩

variable [DecidableEq T] (stv : Stevedore σ) (digest : Digest)

/-- The engine changed by a step of one thread, and where that thread is now. -/
def moved (s : EngineThreads σ T) (t : T) (engine : CacheEngine σ) (phase : EnginePhase) :
    EngineThreads σ T :=
  { s with engine := engine, phase := Function.update s.phase t phase }

/-- The scan of a lookup, under the guard of the map. -/
def scan (s : EngineThreads σ T) (t : T) (requestHeaders : Option HeaderMap) :
    Option CacheLookupResult × EngineThreads σ T :=
  let e := s.engine
  match e.objects.lookup digest with
  | some variants =>
    match scanVariants s.clock requestHeaders variants none with
    | .hit oc => (some (.hit oc), s.moved t
        { e with stats := { e.stats with cacheHit := e.stats.cacheHit + 1 } } .touching)
    | .grace oc => (some (.grace oc), s.moved t
        { e with stats := { e.stats with cacheHitGrace := e.stats.cacheHitGrace + 1 } } .touching)
    | _ => (none, s.moved t e .removing)
  | none => (some .miss, s.moved t
      { e with stats := { e.stats with cacheMiss := e.stats.cacheMiss + 1 } } .idle)

/-- An insertion up to the object it is about to push. -/
def prepare (s : EngineThreads σ T) (t : T) (body : List UInt8) (ttlInfo : TtlInfo) :
    EngineThreads σ T :=
  let e := (s.engine.enforceCapacity stv).2
  match stv.allocObj e.storage (ObjCore.new e.nextAddr digest) body.length with
  | (st, .error _) => s.moved t { e with storage := st } .idle
  | (st, .ok ()) =>
    let oc := CacheEngine.newObject e.nextAddr s.clock digest [] ttlInfo none
    match stv.extend st oc body with
    | (st, .error _) => s.moved t { e with storage := st } .idle
    | (st, .ok ()) =>
      s.moved t { e with storage := st, nextAddr := e.nextAddr + 1 }
        (.pushing { oc with body := body })

def proceed (s : EngineThreads σ T) (t : T) : Option CacheLookupResult × EngineThreads σ T :=
  let e := s.engine
  match s.phase t with
  | .idle => (none, s)
  | .touching => (none, s.moved t { e with lru := e.lru.touch digest } .idle)
  | .removing => (none, s.moved t { e with objects := e.objects.erase digest } .untracking)
  | .untracking => (some .miss, s.moved t
      { e with
        lru := e.lru.remove digest
        stats := { e.stats with cacheMiss := e.stats.cacheMiss + 1 } } .idle)
  | .pushing oc => (none, s.moved t
      { e with objects := e.objects.insert digest (e.variants digest ++ [oc]) } (.tracking oc))
  | .tracking oc => (none, s.moved t { e with lru := e.lru.insert digest } (.queueing oc))
  | .queueing oc => (none, { s.moved t
      { e with
        expiry := e.expiry.insert oc
        stats := { e.stats with
          nObjects := e.stats.nObjects + 1
          bytesStored := e.stats.bytesStored + oc.body.length } } .idle with
      completed := oc :: s.completed })

/-- One step, with a lookup's answer once it has one. A thread in a call
begins no other. -/
def step (s : EngineThreads σ T) : EngineStep T → Option CacheLookupResult × EngineThreads σ T
  | .lookup t requestHeaders =>
    if s.phase t = .idle then s.scan digest t requestHeaders else (none, s)
  | .insert t body ttlInfo =>
    (none, if s.phase t = .idle then s.prepare stv digest t body ttlInfo else s)
  | .next t => s.proceed digest t
  | .pass elapsed => (none, { s with clock := s.clock + elapsed })

/-! ## Insertions are kept -/

/-- **No insertion is lost**: a completely inserted object is in the map
within its ttl. -/
def Kept (s : EngineThreads σ T) : Prop :=
  ∀ oc ∈ s.completed, s.clock ≤ oc.tOrigin + oc.ttl → oc ∈ s.engine.variants digest

/-- Nothing is evicted; and a digest that a lookup removes has only expired
objects by then. -/
def StepOk (s : EngineThreads σ T) : EngineStep T → Prop
  | .insert _ _ _ => (s.engine.enforceCapacity stv).1 = []
  | .next t => s.phase t = .removing →
      ∀ v ∈ s.engine.variants digest, v.isExpired s.clock = true
  | _ => True

instance (s : EngineThreads σ T) (l : EngineStep T) : Decidable (StepOk stv digest s l) :=
  match l with
  | .insert _ _ _ => inferInstanceAs (Decidable (_ = _))
  | .next _ => inferInstanceAs (Decidable (_ → _))
  | .lookup _ _ => inferInstanceAs (Decidable True)
  | .pass _ => inferInstanceAs (Decidable True)

def Pushed (s : EngineThreads σ T) (oc : ObjCore) : Prop :=
  oc ∈ s.completed ∨ ∃ t, s.phase t = .tracking oc ∨ s.phase t = .queueing oc

/-- What has been pushed is kept, completed or not. -/
def Inv (s : EngineThreads σ T) : Prop :=
  ∀ oc, s.Pushed oc → s.clock ≤ oc.tOrigin + oc.ttl → oc ∈ s.engine.variants digest

section Steps

variable {stv : Stevedore σ} {digest : Digest} {s : EngineThreads σ T} {t : T}
  {engine : CacheEngine σ} {phase : EnginePhase}

theorem pushed_moved {oc : ObjCore} (h : (s.moved t engine phase).Pushed oc) :
    s.Pushed oc ∨ phase = .tracking oc ∨ phase = .queueing oc := by
  rcases h with hdone | ⟨t', ht'⟩
  · exact .inl (.inl hdone)
  by_cases ht : t' = t
  · subst ht
    have hnow : (s.moved t' engine phase).phase t' = phase := Function.update_self ..
    rw [hnow] at ht'
    exact .inr ht'
  · have hnow : (s.moved t engine phase).phase t' = s.phase t' := Function.update_of_ne ht ..
    rw [hnow] at ht'
    exact .inl (.inr ⟨t', ht'⟩)

/-- A step after which everything stored is still stored, and a thread behind
its push has pushed an object that is there. -/
theorem Inv.moved (h : s.Inv digest)
    (hkept : ∀ oc ∈ s.engine.variants digest, oc ∈ engine.variants digest)
    (hphase : ∀ oc, phase = .tracking oc ∨ phase = .queueing oc →
      s.Pushed oc ∨ oc ∈ engine.variants digest) :
    (s.moved t engine phase).Inv digest := by
  intro oc hpushed hfresh
  have hbefore : s.Pushed oc ∨ oc ∈ engine.variants digest := by
    rcases pushed_moved hpushed with hold | hnow
    · exact .inl hold
    · exact hphase oc hnow
  rcases hbefore with hold | hnew
  · exact hkept oc (h oc hold hfresh)
  · exact hnew

theorem Inv.scan (h : s.Inv digest) (headers : Option HeaderMap) :
    (s.scan digest t headers).2.Inv digest := by
  dsimp only [EngineThreads.scan]
  split
  · split <;> exact h.moved (fun _ hoc => hoc) (by simp)
  · exact h.moved (fun _ hoc => hoc) (by simp)

theorem Inv.prepare (h : s.Inv digest) {body : List UInt8} {ttlInfo : TtlInfo}
    (hroom : (s.engine.enforceCapacity stv).1 = []) :
    (s.prepare stv digest t body ttlInfo).Inv digest := by
  have hvariants : (s.engine.enforceCapacity stv).2.variants digest = s.engine.variants digest := by
    rw [(CacheEngine.enforceCapacity_effect stv s.engine).variants_eq, hroom]
    simp
  dsimp only [EngineThreads.prepare]
  split
  · exact h.moved (fun _ hoc => hvariants ▸ hoc) (by simp)
  · split <;> exact h.moved (fun _ hoc => hvariants ▸ hoc) (by simp)

theorem Inv.removed (h : s.Inv digest)
    (hexpired : ∀ v ∈ s.engine.variants digest, v.isExpired s.clock = true) :
    (s.moved t { s.engine with objects := s.engine.objects.erase digest } .untracking).Inv
      digest := by
  intro oc hpushed hfresh
  have hbefore : s.Pushed oc := (pushed_moved hpushed).resolve_right (by simp)
  have hstored := hexpired oc (h oc hbefore hfresh)
  rw [ObjCore.isExpired, decide_eq_true_eq] at hstored
  exact absurd hfresh (not_le.mpr hstored)

theorem Inv.proceed (h : s.Inv digest) (hok : StepOk stv digest s (.next t)) :
    (s.proceed digest t).2.Inv digest := by
  dsimp only [EngineThreads.proceed]
  cases hphase : s.phase t with
  | idle => exact h
  | touching => exact h.moved (fun _ hoc => hoc) (by simp)
  | removing => exact h.removed (hok hphase)
  | untracking => exact h.moved (fun _ hoc => hoc) (by simp)
  | pushing oc =>
    have hvariants : ∀ oc' : ObjCore, oc' ∈ CacheEngine.variants { s.engine with
        objects := s.engine.objects.insert digest (s.engine.variants digest ++ [oc]) } digest ↔
        oc' ∈ s.engine.variants digest ∨ oc' = oc := by
      intro oc'
      simp [CacheEngine.variants]
    refine h.moved (fun oc' hoc => (hvariants oc').mpr (.inl hoc)) ?_
    intro oc' hnow
    simp only [EnginePhase.tracking.injEq, reduceCtorEq, or_false] at hnow
    exact .inr ((hvariants oc').mpr (.inr hnow.symm))
  | tracking oc =>
    refine h.moved (fun _ hoc => hoc) ?_
    intro oc' hnow
    simp only [EnginePhase.queueing.injEq, reduceCtorEq, false_or] at hnow
    subst hnow
    exact .inl (.inr ⟨t, .inl hphase⟩)
  | queueing oc =>
    -- the object was pushed already; now its insertion has completed
    intro oc' hpushed hfresh
    refine h oc' ?_ hfresh
    rcases hpushed with hdone | hthread
    · rcases List.mem_cons.mp hdone with rfl | hdone
      · exact .inr ⟨t, .inr hphase⟩
      · exact .inl hdone
    · have hmoved : (s.moved t s.engine .idle).Pushed oc' := .inr hthread
      exact (pushed_moved hmoved).resolve_right (by simp)

theorem Inv.step (h : s.Inv digest) (l : EngineStep T) (hok : StepOk stv digest s l) :
    (s.step stv digest l).2.Inv digest := by
  cases l with
  | lookup t headers =>
    dsimp only [EngineThreads.step]
    split
    · exact h.scan headers
    · exact h
  | insert t body ttlInfo =>
    dsimp only [EngineThreads.step]
    split
    · exact h.prepare hok
    · exact h
  | next t => exact h.proceed hok
  | pass elapsed =>
    intro oc hpushed hfresh
    have hearlier : s.clock ≤ s.clock + elapsed := le_add_of_nonneg_right elapsed.coe_nonneg
    exact h oc hpushed (hearlier.trans hfresh)

end Steps

def cleanedFirst : List (EngineStep (Fin 2)) :=
  [.insert 0 [104] ⟨1, 0, 0⟩, .next 0, .next 0, .next 0, .pass 1000, .lookup 1 none, .next 1,
    .insert 0 [105] .default, .next 0, .next 1, .next 0, .next 0]

end EngineThreads

end VarahaCache
