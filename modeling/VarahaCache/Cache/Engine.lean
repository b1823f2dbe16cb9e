import VarahaCache.Cache.Lru
import VarahaCache.Cache.Expiry
import VarahaCache.Cache.Lookup

/-!
# The cache engine

`CacheEngine` of `rv-cache`: the object map from digests to variant lists, the
LRU tracker and the expiry queue, over any storage. The clock's reading is the
argument `now`. The log lines are left out, and so is the hash index, which
nothing reads.

Every operation DROPS some digests from the map and the tracker, and may then
PUT one object. `Effect` says so once per operation; all invariants are
derived from it.
-/

namespace VarahaCache

structure TtlInfo where
  ttl : VtimDur
  grace : VtimDur
  keep : VtimDur

def TtlInfo.default : TtlInfo := ⟨120, 10, 0⟩

structure CacheStats where
  cacheHit : Nat := 0
  cacheMiss : Nat := 0
  cacheHitGrace : Nat := 0
  evictions : Nat := 0
  nObjects : Nat := 0
  nExpired : Nat := 0
  nPurged : Nat := 0
  bytesStored : Nat := 0

inductive CacheError
  | storage (e : StorageError)
  | banError (message : String)
deriving DecidableEq

structure CacheEngine (σ : Type) where
  storage : σ
  expiry : ExpiryManager
  stats : CacheStats
  objects : AList (fun _ : Digest => List ObjCore)
  lru : ShardedLru
  maxObjects : Nat
  /-- The next address `Arc::new` gives out. -/
  nextAddr : Nat

namespace CacheEngine

variable {σ : Type}

/-- `CacheEngine::with_max_objects`: nothing cached. -/
def new (storage : σ) (maxObjects : Nat) : CacheEngine σ :=
  { storage := storage, expiry := .new, stats := {}, objects := ∅, lru := .new,
    maxObjects := maxObjects, nextAddr := 0 }

/-- The variants stored under a digest; none for an absent one. -/
def variants (e : CacheEngine σ) (d : Digest) : List ObjCore := (e.objects.lookup d).getD []

/-- A hit or grace hit touches the tracker; when no variant suits the request
the whole digest is dropped. -/
def lookup (e : CacheEngine σ) (now : VtimReal) (digest : Digest)
    (requestHeaders : Option HeaderMap) : CacheLookupResult × CacheEngine σ :=
  match e.objects.lookup digest with
  | some variants =>
    match scanVariants now requestHeaders variants none with
    | .hit oc =>
      (.hit oc, { e with
        stats := { e.stats with cacheHit := e.stats.cacheHit + 1 }
        lru := e.lru.touch digest })
    | .grace oc =>
      (.grace oc, { e with
        stats := { e.stats with cacheHitGrace := e.stats.cacheHitGrace + 1 }
        lru := e.lru.touch digest })
    | _ =>
      (.miss, { e with
        objects := e.objects.erase digest
        lru := e.lru.remove digest
        stats := { e.stats with cacheMiss := e.stats.cacheMiss + 1 } })
  | none => (.miss, { e with stats := { e.stats with cacheMiss := e.stats.cacheMiss + 1 } })

/-- Free the storage of a digest `n` times, through a temporary object. -/
def freeDigest (stv : Stevedore σ) (digest : Digest) : Nat → σ → σ
  | 0, st => st
  | n + 1, st => freeDigest stv digest n (stv.freeObj st (ObjCore.new 0 digest))

/-- One eviction: the victim's variants leave the map and the storage. -/
def evictVictim (stv : Stevedore σ) (e : CacheEngine σ) (victim : Digest) : CacheEngine σ :=
  match e.objects.lookup victim with
  | some variants =>
    { e with
      objects := e.objects.erase victim
      storage := freeDigest stv victim variants.length e.storage
      stats := { e.stats with evictions := e.stats.evictions + variants.length } }
  | none => e

/-- The eviction loop, with its victims. Each round takes one digest out of
the tracker, so its length is enough fuel. -/
def enforceCapacityLoop (stv : Stevedore σ) : Nat → CacheEngine σ → List Digest × CacheEngine σ
  | 0, e => ([], e)
  | fuel + 1, e =>
    if e.maxObjects ≤ e.lru.len then
      match e.lru.evictOldest with
      | (some victim, lru) =>
        let r := enforceCapacityLoop stv fuel (evictVictim stv { e with lru := lru } victim)
        (victim :: r.1, r.2)
      | (none, _) => ([], e)
    else ([], e)

def enforceCapacity (stv : Stevedore σ) (e : CacheEngine σ) : List Digest × CacheEngine σ :=
  enforceCapacityLoop stv (e.lru.len + 1) e

def newObject (addr : Nat) (now : VtimReal) (digest : Digest) (body : List UInt8)
    (ttlInfo : TtlInfo) (varyData : Option (List UInt8)) : ObjCore :=
  { ObjCore.new addr digest with
    tOrigin := now, ttl := ttlInfo.ttl, grace := ttlInfo.grace, keep := ttlInfo.keep
    body := body, varyData := varyData }

/-- The end of an insertion: the map, the tracker and the expiry queue learn
of the object. -/
def publish (e : CacheEngine σ) (oc : ObjCore) : CacheEngine σ :=
  { e with
    objects := e.objects.insert oc.digest (e.variants oc.digest ++ [oc])
    lru := e.lru.insert oc.digest
    expiry := e.expiry.insert oc
    stats := { e.stats with
      nObjects := e.stats.nObjects + 1
      bytesStored := e.stats.bytesStored + oc.body.length }
    nextAddr := e.nextAddr + 1 }

/-- Insert an object, making room first; a refusal of the storage leaves none
behind. The victims come with the answer. -/
def insert (stv : Stevedore σ) (e : CacheEngine σ) (now : VtimReal) (digest : Digest)
    (body : List UInt8) (ttlInfo : TtlInfo) (varyData : Option (List UInt8)) :
    (List Digest × Except CacheError ObjCore) × CacheEngine σ :=
  let (victims, e) := enforceCapacity stv e
  match stv.allocObj e.storage (ObjCore.new e.nextAddr digest) body.length with
  | (st, .error err) => ((victims, .error (.storage err)), { e with storage := st })
  | (st, .ok ()) =>
    let oc := newObject e.nextAddr now digest [] ttlInfo none
    match stv.extend st oc body with
    | (st, .error err) => ((victims, .error (.storage err)), { e with storage := st })
    | (st, .ok ()) =>
      let oc := { oc with body := body, varyData := varyData }
      ((victims, .ok oc), publish { e with storage := st } oc)

/-- Remove all variants of a digest; their number is the answer. -/
def remove (stv : Stevedore σ) (e : CacheEngine σ) (digest : Digest) : Nat × CacheEngine σ :=
  let count := (e.variants digest).length
  (count, { e with
    objects := e.objects.erase digest
    lru := e.lru.remove digest
    storage := freeDigest stv digest count e.storage
    stats := { e.stats with evictions := e.stats.evictions + count } })

def purge (e : CacheEngine σ) (digest : Digest) : CacheEngine σ :=
  { e with
    objects := e.objects.erase digest
    lru := e.lru.remove digest
    stats := { e.stats with nPurged := e.stats.nPurged + 1 } }

/-- One popped entry of the expiry pass: its whole digest goes. -/
def expireOne (stv : Stevedore σ) (e : CacheEngine σ) (oc : ObjCore) : CacheEngine σ :=
  { e with
    lru := e.lru.remove oc.digest
    objects := e.objects.erase oc.digest
    storage := stv.freeObj e.storage (ObjCore.new 0 oc.digest) }

/-- One expiry pass, with the popped objects (the program returns their
number). -/
def expireObjects (stv : Stevedore σ) (e : CacheEngine σ) (now : VtimReal) :
    List ObjCore × CacheEngine σ :=
  let expired := (e.expiry.expire now).1
  let e' := expired.foldl (expireOne stv) { e with expiry := (e.expiry.expire now).2 }
  (expired, { e' with
    stats := { e'.stats with
      nExpired := e'.stats.nExpired + expired.length
      evictions := e'.stats.evictions + expired.length } })

/-! ## What an operation does to the map, the tracker and the queue -/

/-- The digests in `drops` leave the map and the tracker; then the object in
`put`, if any, joins its digest's variants and the queue, which loses no entry
of another digest. -/
structure Effect (e e' : CacheEngine σ) (drops : List Digest) (put : Option ObjCore) :
    Prop where
  objects : ∀ d, e'.objects.lookup d =
    if ∃ o, put = some o ∧ o.digest = d then
      some ((if d ∈ drops then [] else e.variants d) ++ put.toList)
    else if d ∈ drops then none else e.objects.lookup d
  tracks : ∀ d, e'.lru.Tracks d ↔ (∃ o, put = some o ∧ o.digest = d) ∨ (e.lru.Tracks d ∧ d ∉ drops)
  queued : ∀ x, (∃ o, put = some o ∧ x = ⟨o.deadline, o⟩) ∨
    (e.expiry.Queued x ∧ x.objcore.digest ∉ drops) → e'.expiry.Queued x

/-- The map's keys are the tracker's digests. -/
def Tracked (e : CacheEngine σ) : Prop := ∀ d, d ∈ e.objects ↔ e.lru.Tracks d

variable {e : CacheEngine σ} {digest : Digest} {drops : List Digest}

theorem lookup_eq_none_iff {d : Digest} :
    e.objects.lookup d = none ↔ d ∉ e.objects := AList.lookup_eq_none

theorem lookup_erase_eq (objects : AList (fun _ : Digest => List ObjCore)) (digest d : Digest) :
    (objects.erase digest).lookup d = if d = digest then none else objects.lookup d := by
  by_cases hd : d = digest
  · subst hd
    simp
  · simp [hd, AList.lookup_erase_ne hd]

theorem queued_of_expiry_eq {e e' : CacheEngine σ} {x : ExpiryEntry}
    (hx : e'.expiry = e.expiry)
    (h : (∃ o, (none : Option ObjCore) = some o ∧ x = ⟨o.deadline, o⟩) ∨
      (e.expiry.Queued x ∧ x.objcore.digest ∉ drops)) : e'.expiry.Queued x := by
  rcases h with ⟨o, ho, _⟩ | ⟨hq, _⟩
  · cases ho
  · rw [hx]
    exact hq

theorem Effect.drop {e e' : CacheEngine σ}
    (ho : e'.objects = e.objects.erase digest) (hl : e'.lru = e.lru.remove digest)
    (hx : e'.expiry = e.expiry) : Effect e e' [digest] none where
  objects := by
    intro d
    rw [ho, lookup_erase_eq]
    simp
  tracks := by
    intro d
    rw [hl, ShardedLru.tracks_remove]
    simp [and_comm]
  queued := fun _ => queued_of_expiry_eq hx

theorem Effect.idle {e e' : CacheEngine σ} (ho : e'.objects = e.objects)
    (hl : ∀ d, e'.lru.Tracks d ↔ e.lru.Tracks d) (hx : e'.expiry = e.expiry) :
    Effect e e' [] none where
  objects := by intro d; simp [ho]
  tracks := by intro d; simp [hl]
  queued := fun _ => queued_of_expiry_eq hx

/-- The digests a lookup drops, read off its answer. -/
def lookupDrops (digest : Digest) : CacheLookupResult → List Digest
  | .miss => [digest]
  | _ => []

theorem lookup_effect (ht : e.Tracked) (now : VtimReal) (digest : Digest)
    (headers : Option HeaderMap) :
    Effect e (e.lookup now digest headers).2
      (lookupDrops digest (e.lookup now digest headers).1) none := by
  rw [lookup]
  cases hv : e.objects.lookup digest with
  | none =>
    -- an absent digest is not tracked either, so it counts as dropped
    have hnot : ¬ e.lru.Tracks digest := by
      rw [← ht]
      exact lookup_eq_none_iff.mp hv
    refine ⟨?_, ?_, ?_⟩
    · intro d
      by_cases hd : d = digest
      · subst hd
        simp [lookupDrops, hv]
      · simp [lookupDrops, hd]
    · intro d
      by_cases hd : d = digest
      · subst hd
        simp [lookupDrops, hnot]
      · simp [lookupDrops, hd]
    · exact fun _ => queued_of_expiry_eq rfl
  | some variants =>
    dsimp only
    rcases scanVariants_cases now headers variants with ⟨oc, hs⟩ | ⟨oc, hs⟩ | hs
    · rw [hs]
      exact .idle rfl (fun d => ShardedLru.tracks_touch) rfl
    · rw [hs]
      exact .idle rfl (fun d => ShardedLru.tracks_touch) rfl
    · rw [hs]
      exact .drop rfl rfl rfl

variable (stv : Stevedore σ) {put : Option ObjCore} {victim : Digest} {now : VtimReal}
  {body : List UInt8} {ttlInfo : TtlInfo} {vary : Option (List UInt8)}

theorem remove_effect (e : CacheEngine σ) (digest : Digest) :
    Effect e (e.remove stv digest).2 [digest] none := .drop rfl rfl rfl

theorem purge_effect (e : CacheEngine σ) (digest : Digest) :
    Effect e (e.purge digest) [digest] none := .drop rfl rfl rfl

theorem Effect.trans {e₁ e₂ e₃ : CacheEngine σ} {drops₁ drops₂ : List Digest}
    (h₁ : Effect e₁ e₂ drops₁ none) (h₂ : Effect e₂ e₃ drops₂ put) :
    Effect e₁ e₃ (drops₁ ++ drops₂) put where
  objects := by
    intro d
    have hv : e₂.variants d = if d ∈ drops₁ then [] else e₁.variants d := by
      have := h₁.objects d
      simp only [reduceCtorEq, false_and, exists_false, if_false] at this
      rw [variants, this]
      split <;> rfl
    rw [h₂.objects d, hv, h₁.objects d]
    simp only [reduceCtorEq, false_and, exists_false, if_false, List.mem_append]
    by_cases h1 : d ∈ drops₁ <;> by_cases h2 : d ∈ drops₂ <;> simp [h1, h2]
  tracks := by
    intro d
    rw [h₂.tracks d, h₁.tracks d]
    simp [not_or, and_assoc]
  queued := by
    intro x hx
    apply h₂.queued
    rcases hx with hx | ⟨hq, hd⟩
    · exact .inl hx
    · rw [List.mem_append, not_or] at hd
      exact .inr ⟨h₁.queued x (.inr ⟨hq, hd.1⟩), hd.2⟩

theorem evictVictim_lru (e : CacheEngine σ) (victim : Digest) :
    (evictVictim stv e victim).lru = e.lru := by
  unfold evictVictim
  split <;> rfl

theorem evictVictim_effect {lru : ShardedLru}
    (hl : ∀ x, lru.Tracks x ↔ x ≠ victim ∧ e.lru.Tracks x) :
    Effect e (evictVictim stv { e with lru := lru } victim) [victim] none := by
  have hqueue : (evictVictim stv { e with lru := lru } victim).expiry = e.expiry := by
    simp only [evictVictim]
    split <;> rfl
  refine ⟨?_, ?_, ?_⟩
  · intro d
    simp only [reduceCtorEq, false_and, exists_false, if_false, List.mem_singleton]
    simp only [evictVictim]
    split
    · rw [lookup_erase_eq]
    rename_i hnone
    by_cases hd : d = victim
    · subst hd
      simp [hnone]
    · simp [hd]
  · intro d
    rw [evictVictim_lru, hl]
    simp [and_comm]
  · exact fun _ => queued_of_expiry_eq hqueue

/-- The rule of the eviction loop: what holds when nothing is evicted, and
is kept when one more tracked digest is evicted first, holds of the loop. -/
theorem enforceCapacityLoop_induction
    {R : CacheEngine σ → List Digest → CacheEngine σ → Prop} (idle : ∀ e, R e [] e)
    (evict : ∀ e victim lru drops e', e.lru.Tracks victim →
      (∀ x, lru.Tracks x ↔ x ≠ victim ∧ e.lru.Tracks x) →
      R (evictVictim stv { e with lru := lru } victim) drops e' → R e (victim :: drops) e')
    (fuel : Nat) (e : CacheEngine σ) :
    R e (enforceCapacityLoop stv fuel e).1 (enforceCapacityLoop stv fuel e).2 := by
  induction fuel generalizing e with
  | zero => exact idle e
  | succ fuel ih =>
    rw [enforceCapacityLoop]
    by_cases hcap : e.maxObjects ≤ e.lru.len
    · rw [if_pos hcap]
      rcases e.lru.evictOldest_cases with hnone | ⟨victim, hvictim, htracked, _, htracks⟩
      · rw [hnone]
        exact idle e
      have hev : e.lru.evictOldest = (some victim, e.lru.evictOldest.2) := by rw [← hvictim]
      rw [hev]
      exact evict e victim _ _ _ htracked htracks (ih _)
    · rw [if_neg hcap]
      exact idle e

theorem enforceCapacity_effect (e : CacheEngine σ) :
    Effect e (enforceCapacity stv e).2 (enforceCapacity stv e).1 none := by
  refine enforceCapacityLoop_induction stv (R := fun e drops e' => Effect e e' drops none) ?_ ?_ _ e
  · intro e
    exact .idle rfl (fun _ => Iff.rfl) rfl
  · intro e victim lru drops e' _ htracks hrest
    exact (evictVictim_effect stv htracks).trans hrest

theorem enforceCapacity_of_room (h : e.lru.len < e.maxObjects ∨ e.lru.evictOldest.1 = none) :
    enforceCapacity stv e = ([], e) := by
  rw [enforceCapacity, enforceCapacityLoop]
  by_cases hcap : e.maxObjects ≤ e.lru.len
  · rw [if_pos hcap]
    have hnone : e.lru.evictOldest.1 = none := h.resolve_left (not_lt.mpr hcap)
    rcases e.lru.evictOldest_cases with hev | ⟨d, hd, _⟩
    · rw [hev]
    · rw [hnone] at hd
      cases hd
  · rw [if_neg hcap]

theorem mem_enforceCapacity (hcap : e.maxObjects ≤ e.lru.len)
    (hvictim : e.lru.evictOldest.1 = some victim) : victim ∈ (enforceCapacity stv e).1 := by
  have hev : e.lru.evictOldest = (some victim, e.lru.evictOldest.2) := by rw [← hvictim]
  rw [enforceCapacity, enforceCapacityLoop, if_pos hcap, hev]
  exact List.mem_cons_self

theorem publish_effect (e : CacheEngine σ) (oc : ObjCore) :
    Effect e (publish e oc) [] (some oc) where
  objects := by
    intro d
    by_cases hd : oc.digest = d
    · subst hd
      simp [publish]
    · have hd' : d ≠ oc.digest := fun h => hd h.symm
      simp [publish, hd, AList.lookup_insert_ne hd']
  tracks := by
    intro d
    simp only [publish, ShardedLru.tracks_insert, Option.some.injEq]
    simp [eq_comm]
  queued := by
    intro x h
    rcases h with ⟨o, ho, rfl⟩ | ⟨hq, _⟩
    · cases ho
      exact ExpiryManager.queued_insert.mpr (.inl rfl)
    · exact ExpiryManager.queued_insert.mpr (.inr hq)

theorem Effect.storage {e e' : CacheEngine σ}
    (st : σ) (h : Effect { e with storage := st } e' drops put) : Effect e e' drops put :=
  ⟨h.objects, h.tracks, h.queued⟩

/-- What an insertion does: it drops the victims, then fails, or puts the
object it answers with. -/
theorem insert_effect (e : CacheEngine σ) (now : VtimReal)
    (digest : Digest) (body : List UInt8) (ttlInfo : TtlInfo) (vary : Option (List UInt8)) :
    Effect e (e.insert stv now digest body ttlInfo vary).2
      (e.insert stv now digest body ttlInfo vary).1.1
      (e.insert stv now digest body ttlInfo vary).1.2.toOption := by
  have hroom := enforceCapacity_effect stv e
  have hput : ∀ st oc, Effect e (publish { (enforceCapacity stv e).2 with storage := st } oc)
      (enforceCapacity stv e).1 (some oc) := by
    intro st oc
    have h := hroom.trans (Effect.storage st (publish_effect _ oc))
    rw [List.append_nil] at h
    exact h
  simp only [insert]
  split
  · exact ⟨hroom.objects, hroom.tracks, hroom.queued⟩
  split
  · exact ⟨hroom.objects, hroom.tracks, hroom.queued⟩
  · exact hput _ _

theorem insert_victims (e : CacheEngine σ) (now : VtimReal)
    (digest : Digest) (body : List UInt8) (ttlInfo : TtlInfo) (vary : Option (List UInt8)) :
    (e.insert stv now digest body ttlInfo vary).1.1 = (enforceCapacity stv e).1 := by
  simp only [insert]
  split
  · rfl
  · split <;> rfl

theorem insert_ok {stv : Stevedore σ} {o : ObjCore}
    (h : (e.insert stv now digest body ttlInfo vary).1.2 = .ok o) :
    ∃ addr, o = newObject addr now digest body ttlInfo vary := by
  simp only [insert] at h
  split at h
  · cases h
  split at h
  · cases h
  · cases h
    exact ⟨_, rfl⟩

/-- The storage has room for a body, once capacity is enforced. -/
def Takes (stv : Stevedore σ) (e : CacheEngine σ) (now : VtimReal) (digest : Digest)
    (body : List UInt8) (ttlInfo : TtlInfo) : Prop :=
  let room := (enforceCapacity stv e).2
  let allocated := stv.allocObj room.storage (ObjCore.new room.nextAddr digest) body.length
  allocated.2 = .ok () ∧
    (stv.extend allocated.1 (newObject room.nextAddr now digest [] ttlInfo none) body).2 = .ok ()

theorem exists_insert_ok_iff {stv : Stevedore σ} :
    (∃ oc, (e.insert stv now digest body ttlInfo vary).1.2 = .ok oc) ↔
      Takes stv e now digest body ttlInfo := by
  simp only [insert, Takes]
  split
  · rename_i halloc
    simp [halloc]
  rename_i halloc
  split
  all_goals
    rename_i hextend
    simp [halloc, hextend]

theorem expireOne_effect (e : CacheEngine σ) (oc : ObjCore) :
    Effect e (expireOne stv e oc) [oc.digest] none := .drop rfl rfl rfl

theorem foldl_expireOne_effect (l : List ObjCore) (e : CacheEngine σ) :
    Effect e (l.foldl (expireOne stv) e) (l.map ObjCore.digest) none := by
  induction l generalizing e with
  | nil => exact .idle rfl (fun _ => Iff.rfl) rfl
  | cons oc l ih => exact (expireOne_effect stv e oc).trans (ih _)

theorem expireObjects_effect (e : CacheEngine σ) (now : VtimReal) :
    Effect e (e.expireObjects stv now).2 ((e.expireObjects stv now).1.map ObjCore.digest) none := by
  have hfold := foldl_expireOne_effect stv (e.expiry.expire now).1
    { e with expiry := (e.expiry.expire now).2 }
  refine ⟨hfold.objects, hfold.tracks, ?_⟩
  intro x h
  rcases h with ⟨o, ho, _⟩ | ⟨hq, hkept⟩
  · cases ho
  refine hfold.queued x (.inr ⟨?_, hkept⟩)
  rw [ExpiryManager.queued_expire]
  refine ⟨hq, not_le.mp ?_⟩
  intro hdue
  exact hkept (List.mem_map.mpr ⟨x.objcore, ExpiryManager.mem_expire.mpr ⟨x, hq, hdue, rfl⟩, rfl⟩)

end CacheEngine

end VarahaCache
