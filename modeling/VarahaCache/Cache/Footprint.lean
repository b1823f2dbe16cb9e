import VarahaCache.Cache.Soundness
import VarahaCache.Storage.Malloc

/-!
# What the cache holds on to

The engine drops digests on five paths. Eviction, `remove` and an expiry pass
free the storage too; a lookup that misses and `purge` do not
(`noLeak_iff_noLeakOk`). The object limit counts digests and not variants
(`count_le_iff_limitOk`), and a refused insertion may already have evicted
(`insert_refused_iff_room`).
-/

namespace VarahaCache

open Lib MallocStevedore Option AList

namespace MallocStevedore

variable {sizes : TypeSizes} {s : MallocStevedore} {d digest : Digest}

theorem mem_freeObj : d ∈ (s.freeObj sizes digest).objects ↔ d ∈ s.objects ∧ d ≠ digest := by
  unfold freeObj
  cases hobj : s.objects.lookup digest with
  | none =>
    have habsent : digest ∉ s.objects := lookup_eq_none.mp hobj
    constructor
    · intro hd
      refine ⟨hd, ?_⟩
      intro heq
      exact habsent (heq ▸ hd)
    · intro hd
      exact hd.1
  | some obj => simp [release, mem_erase, and_comm]

variable {t : MallocStevedore} {sizeHint : ℕ} {err : StorageError} {data : List UInt8}

theorem mem_allocObj (h : s.allocObj sizes digest sizeHint = (t, .ok ())) :
    d ∈ t.objects ↔ d = digest ∨ d ∈ s.objects := by
  unfold allocObj tryReserve at h
  dsimp only at h
  split at h
  · cases h
  rename_i hreserve
  split at hreserve
  · cases hreserve
  split at hreserve
  · cases hreserve
  cases hreserve
  cases h
  exact mem_insert _

theorem allocObj_error (h : s.allocObj sizes digest sizeHint = (t, .error err)) : t = s := by
  unfold allocObj at h
  dsimp only at h
  split at h
  · cases h
    rfl
  · cases h

theorem mem_extend {r : Except StorageError Unit}
    (h : s.extend digest data = (t, r)) : d ∈ t.objects ↔ d ∈ s.objects := by
  unfold extend at h
  cases hobj : s.objects.lookup digest with
  | none =>
    rw [hobj] at h
    cases h
    exact Iff.rfl
  | some obj =>
    rw [hobj] at h
    cases h
    have hmem : digest ∈ s.objects := by
      rw [← lookup_isSome, hobj]
      rfl
    rw [mem_insert]
    constructor
    · intro hd
      rcases hd with rfl | hd
      · exact hmem
      · exact hd
    · exact .inr

theorem extend_error (h : s.extend digest data = (t, .error err)) : digest ∉ s.objects := by
  unfold extend at h
  cases hobj : s.objects.lookup digest with
  | none => exact lookup_eq_none.mp hobj
  | some obj =>
    rw [hobj] at h
    cases h

end MallocStevedore

namespace CacheEngine

theorem Inv.length_variants_ne_zero {σ : Type} {e : CacheEngine σ} {d : Digest} (h : Inv e)
    (hd : d ∈ e.objects) : (e.variants d).length ≠ 0 := by
  obtain ⟨vs, hvs⟩ := isSome_iff_exists.mp (lookup_isSome.mpr hd)
  have hne : vs ≠ [] := by
    rintro rfl
    exact h.nonempty d hvs
  rw [variants, hvs, getD_some, ne_eq, List.length_eq_zero_iff]
  exact hne

section Leak

variable {σ : Type} {sizes : TypeSizes} {e e' : CacheEngine MallocStevedore} {drops : List Digest}
  {put : Option ObjCore} {d digest : Digest}

/-! ## The digests of the store -/

/-- An operation that frees what it drops: the digests in `drops` leave the
store, the object in `put` joins it. -/
def Frees (e e' : CacheEngine MallocStevedore) (drops : List Digest) (put : Option ObjCore) : Prop :=
  ∀ d, d ∈ e'.storage.objects ↔
    (∃ o, put = some o ∧ o.digest = d) ∨ (d ∈ e.storage.objects ∧ d ∉ drops)

theorem Frees.trans {e₁ e₂ e₃ : CacheEngine MallocStevedore} {drops₁ drops₂ : List Digest}
    (h₁ : Frees e₁ e₂ drops₁ none) (h₂ : Frees e₂ e₃ drops₂ put) :
    Frees e₁ e₃ (drops₁ ++ drops₂) put := by
  intro d
  rw [h₂ d, h₁ d]
  simp [and_assoc]

theorem mem_freeDigest {n : ℕ} {s : MallocStevedore} :
    d ∈ (freeDigest (stevedore sizes) digest n s).objects ↔
      d ∈ s.objects ∧ (n ≠ 0 → d ≠ digest) := by
  induction n generalizing s with
  | zero => simp [freeDigest]
  | succ n ih =>
    rw [freeDigest, ih]
    show d ∈ (s.freeObj sizes digest).objects ∧ _ ↔ _
    rw [mem_freeObj]
    simp only [ne_eq, Nat.add_one_ne_zero, not_false_eq_true, forall_const, and_assoc]
    exact and_congr_right fun _ => and_iff_left_of_imp fun h _ => h

theorem Frees.idle (h : e'.storage = e.storage) : Frees e e' [] none := by
  intro d
  simp [h]

theorem evictVictim_frees (sizes : TypeSizes) (h : Inv e) (hd : d ∈ e.objects) (lru : ShardedLru) :
    Frees e (evictVictim (stevedore sizes) { e with lru := lru } d) [d] none := by
  intro x
  have hlen := h.length_variants_ne_zero hd
  obtain ⟨vs, hvs⟩ := isSome_iff_exists.mp (lookup_isSome.mpr hd)
  rw [variants, hvs, getD_some] at hlen
  simp only [evictVictim, hvs, mem_freeDigest]
  simp [hlen]

theorem enforceCapacity_frees (sizes : TypeSizes) (h : Inv e) :
    Frees e (enforceCapacity (stevedore sizes) e).2
      (enforceCapacity (stevedore sizes) e).1 none := by
  refine enforceCapacityLoop_induction (stevedore sizes)
    (R := fun e drops e' => Inv e → Frees e e' drops none) ?_ ?_ _ e h
  · intro e _
    exact .idle rfl
  intro e victim lru drops e' htracked htracks hrest h
  have hfirst := evictVictim_frees sizes h ((h.tracked victim).mpr htracked) lru
  have hinv := h.step (evictVictim_effect (stevedore sizes) htracks) (by simp)
  exact hfirst.trans (hrest hinv)

theorem insert_frees (sizes : TypeSizes) (h : Inv e) (now : VtimReal) (digest : Digest)
    (body : List UInt8) (ttlInfo : TtlInfo) (vary : Option (List UInt8)) :
    Frees e (e.insert (stevedore sizes) now digest body ttlInfo vary).2
      (e.insert (stevedore sizes) now digest body ttlInfo vary).1.1
      (e.insert (stevedore sizes) now digest body ttlInfo vary).1.2.toOption := by
  have hroom := enforceCapacity_frees sizes h
  intro d
  simp only [insert]
  split
  · -- a refused allocation leaves the store as it is
    rename_i halloc
    rw [allocObj_error halloc]
    exact hroom d
  rename_i st halloc
  have hmem : ∀ d, d ∈ st.objects ↔ _ := fun d => mem_allocObj (d := d) halloc
  split
  · rename_i hextend
    exact absurd ((hmem digest).mpr (.inl rfl)) (extend_error hextend)
  rename_i hextend
  rw [publish, mem_extend hextend, hmem d, hroom d]
  simp only [Except.toOption, reduceCtorEq, false_and, exists_false, false_or,
    some.injEq, exists_eq_left']
  exact or_congr eq_comm Iff.rfl

theorem foldl_expireOne_frees (sizes : TypeSizes) (l : List ObjCore)
    (e : CacheEngine MallocStevedore) :
    Frees e (l.foldl (expireOne (stevedore sizes)) e) (l.map ObjCore.digest)
      none := by
  induction l generalizing e with
  | nil => exact .idle rfl
  | cons oc l ih =>
    have hone : Frees e (expireOne (stevedore sizes) e oc) [oc.digest] none := by
      intro d
      show d ∈ (e.storage.freeObj sizes oc.digest).objects ↔ _
      rw [mem_freeObj]
      simp
    exact hone.trans (ih _)

theorem lookup_storage {σ : Type} (e : CacheEngine σ) (now : VtimReal) (digest : Digest)
    (headers : Option HeaderMap) : (e.lookup now digest headers).2.storage = e.storage := by
  unfold lookup
  split
  · split <;> rfl
  · rfl

/-! ## No leak -/

/-- **No leak**: every object of the store belongs to a digest of the map. -/
def NoLeak (e : CacheEngine MallocStevedore) : Prop := ∀ d, d ∈ e.storage.objects → d ∈ e.objects

/-- A lookup finds a variant that suits it, or no variant; a purge finds no
digest. -/
def NoLeakOk (e : CacheEngine MallocStevedore) (c : Call) : Prop :=
  match c.op with
  | .lookup digest headers => digest ∈ e.objects →
      ∃ v ∈ e.variants digest, Fresh c.time headers v ∨ Stale c.time headers v
  | .purge digest => digest ∉ e.objects
  | _ => True

/-- The map and the store have the same digests. -/
structure Paired (e : CacheEngine MallocStevedore) : Prop where
  inv : Inv e
  same : ∀ d, d ∈ e.storage.objects ↔ d ∈ e.objects

theorem Effect.mem_objects {σ : Type} {e e' : CacheEngine σ} (h : Effect e e' drops put) :
    d ∈ e'.objects ↔ (∃ o, put = some o ∧ o.digest = d) ∨ (d ∈ e.objects ∧ d ∉ drops) := by
  rw [← lookup_isSome, h.objects d, ← lookup_isSome]
  by_cases hp : ∃ o, put = some o ∧ o.digest = d
  · simp [hp]
  · by_cases hdrop : d ∈ drops <;> simp [hp, hdrop]

theorem Paired.frees (h : Paired e) (heff : Effect e e' drops put) (hfrees : Frees e e' drops put)
    (hput : ∀ o, put = some o → o.flags = .empty) : Paired e' where
  inv := h.inv.step heff hput
  same := by
    intro d
    rw [hfrees d, heff.mem_objects, h.same d]

/-- An operation that drops and frees nothing leaks what it drops. -/
theorem Paired.noLeak_iff (h : Paired e) (heff : Effect e e' drops none)
    (hstorage : e'.storage = e.storage) : NoLeak e' ↔ ∀ d ∈ drops, d ∉ e.objects := by
  unfold NoLeak
  rw [hstorage]
  constructor
  · intro hleak d hdrop hd
    have hd' := hleak d ((h.same d).mpr hd)
    rw [heff.mem_objects] at hd'
    rcases hd' with ⟨o, ho, _⟩ | ⟨_, hkept⟩
    · cases ho
    · exact hkept hdrop
  · intro hdrops d hd
    rw [h.same d] at hd
    rw [heff.mem_objects]
    exact .inr ⟨hd, fun hdrop => hdrops d hdrop hd⟩

theorem Paired.forgets (h : Paired e) (heff : Effect e e' drops none)
    (hstorage : e'.storage = e.storage) (hdrops : ∀ d ∈ drops, d ∉ e.objects) : Paired e' where
  inv := h.inv.step heff (by simp)
  same := by
    intro d
    rw [hstorage, h.same d, heff.mem_objects]
    constructor
    · intro hd
      exact .inr ⟨hd, fun hdrop => hdrops d hdrop hd⟩
    rintro (⟨o, ho, _⟩ | ⟨hd, _⟩)
    · cases ho
    · exact hd

theorem Paired.remove_frees (h : Paired e) (digest : Digest) :
    Frees e (e.remove (stevedore sizes) digest).2 [digest] none := by
  intro d
  show d ∈ (freeDigest _ digest (e.variants digest).length e.storage).objects ↔ _
  rw [mem_freeDigest]
  simp only [reduceCtorEq, false_and, exists_false, false_or, List.mem_singleton]
  refine and_congr_right ?_
  intro hd
  constructor
  · intro hkept heq
    rw [h.same, heq] at hd
    exact hkept (h.inv.length_variants_ne_zero hd) heq
  · intro hne _
    exact hne

theorem forall_lookupDrops_iff (e : CacheEngine σ) (now : VtimReal) (digest : Digest)
    (headers : Option HeaderMap) :
    (∀ d ∈ lookupDrops digest (e.lookup now digest headers).1, d ∉ e.objects) ↔
      (digest ∈ e.objects →
        ∃ v ∈ e.variants digest, Fresh now headers v ∨ Stale now headers v) := by
  rw [lookup_fst]
  by_cases hmiss : scanVariants now headers (e.variants digest) none = .miss
  · have hnone := scanVariants_miss_iff.mp hmiss
    rw [hmiss]
    simp only [lookupDrops, List.mem_singleton, forall_eq]
    constructor
    · intro habsent hd
      exact absurd hd habsent
    intro h hd
    obtain ⟨v, hv, hgood⟩ := h hd
    have := hnone v hv
    tauto
  have hgood : ∃ v ∈ e.variants digest, Fresh now headers v ∨ Stale now headers v := by
    by_contra hnone
    push Not at hnone
    exact hmiss (scanVariants_miss_iff.mpr hnone)
  refine iff_of_true ?_ fun _ => hgood
  rcases scanVariants_cases now headers (e.variants digest) with ⟨o, ho⟩ | ⟨o, ho⟩ | ho
  · rw [ho]
    simp [lookupDrops]
  · rw [ho]
    simp [lookupDrops]
  · exact absurd ho hmiss

theorem Paired.step (h : Paired e) (c : Call) :
    (NoLeak (e.step (stevedore sizes) c).2 ↔ NoLeakOk e c) ∧
      (NoLeakOk e c → Paired (e.step (stevedore sizes) c).2) := by
  have hall : ∀ {e'}, Paired e' → NoLeak e' := fun h d => (h.same d).mp
  obtain ⟨time, op⟩ := c
  cases op with
  | insert digest body ttlInfo varyData =>
    have hnext := h.frees (insert_effect (stevedore sizes) e time digest body
      ttlInfo varyData) (insert_frees sizes h.inv time digest body ttlInfo varyData) ?_
    · exact ⟨iff_of_true (hall hnext) trivial, fun _ => hnext⟩
    intro o ho
    cases hr : (e.insert (stevedore sizes) time digest body ttlInfo
        varyData).1.2 with
    | error err =>
      rw [hr] at ho
      cases ho
    | ok oc =>
      rw [hr] at ho
      cases ho
      obtain ⟨addr, rfl⟩ := insert_ok hr
      rfl
  | lookup digest headers =>
    have heff := lookup_effect h.inv.tracked time digest headers
    have hdrops := forall_lookupDrops_iff e time digest headers
    have hstorage := lookup_storage e time digest headers
    exact ⟨(h.noLeak_iff heff hstorage).trans hdrops,
      fun hok => h.forgets heff hstorage (hdrops.mpr hok)⟩
  | remove digest =>
    have hnext := h.frees (remove_effect (stevedore sizes) e digest)
      (h.remove_frees digest) (by simp)
    exact ⟨iff_of_true (hall hnext) trivial, fun _ => hnext⟩
  | purge digest =>
    have heff := purge_effect e digest
    have hdrops : (∀ d ∈ [digest], d ∉ e.objects) ↔ digest ∉ e.objects := by simp
    exact ⟨(h.noLeak_iff heff rfl).trans hdrops, fun hok => h.forgets heff rfl (hdrops.mpr hok)⟩
  | expireObjects =>
    have hnext := h.frees (expireObjects_effect (stevedore sizes) e time)
      (foldl_expireOne_frees sizes _ { e with expiry := (e.expiry.expire time).2 }) (by simp)
    exact ⟨iff_of_true (hall hnext) trivial, fun _ => hnext⟩

theorem paired_new (maxSize maxObjects : ℕ) : Paired (new (.new maxSize) maxObjects) where
  inv := inv_new _ maxObjects
  same := fun d => iff_of_false (notMem_empty d) (notMem_empty d)

/-- **When the engine leaks no storage**, over any calls on an empty engine:
after every call each object of the store belongs to a digest of the map
EXACTLY when every lookup finds a variant that suits it or none at all, and
every purge is of a digest that is not there. -/
theorem noLeak_iff_noLeakOk (sizes : TypeSizes) (maxSize maxObjects : ℕ) (calls : List Call) :
    Guarded (step (stevedore sizes)) (fun e c => NoLeak (e.step (stevedore sizes) c).2)
        (new (.new maxSize) maxObjects) calls ↔
      Guarded (step (stevedore sizes)) NoLeakOk (new (.new maxSize) maxObjects) calls :=
  guarded_iff_guarded _ (P := Paired) (fun _ c h => (h.step c).1) (fun _ c h => (h.step c).2)
    (paired_new maxSize maxObjects)

/-- A lookup that finds its object expired forgets it; the store keeps it. -/
theorem not_noLeak_expired :
    let calls : List Call := [⟨0, .insert digestZero [104, 105] .default none⟩,
      ⟨1000, .lookup digestZero none⟩]
    let e := (run (stevedore HintedStore.sizes64) (.new 1000) 10 calls).2
    (e.objects.keys = [] ∧ digestZero ∈ e.storage.objects) ∧
      ¬ Guarded (step (stevedore HintedStore.sizes64))
        (fun e c => NoLeak (e.step (stevedore HintedStore.sizes64) c).2)
        (new (.new 1000) 10) calls := by
  refine ⟨by decide +kernel, ?_⟩
  rintro ⟨-, hleak, -⟩
  have habsent := hleak digestZero (by decide +kernel)
  revert habsent
  decide +kernel

/-! ## A refused insertion -/

/-- A refused insertion with room changes nothing: the memory store refuses
only allocations, and then stays as it is. -/
theorem insert_error_of_room {now : VtimReal} {body : List UInt8} {ttlInfo : TtlInfo}
    {vary : Option (List UInt8)} {err : CacheError}
    (hroom : e.lru.len < e.maxObjects ∨ e.lru.evictOldest.1 = none)
    (herr : (e.insert (stevedore sizes) now digest body ttlInfo vary).1.2 = .error err) :
    (e.insert (stevedore sizes) now digest body ttlInfo vary).2 = e := by
  simp only [insert, enforceCapacity_of_room _ hroom] at herr ⊢
  split at herr
  · rename_i st _ halloc
    rw [allocObj_error halloc]
  rename_i st halloc
  split at herr
  · rename_i hextend
    exact absurd ((mem_allocObj halloc).mpr (.inl rfl)) (extend_error hextend)
  · cases herr

theorem Inv.exists_hit {σ : Type} {e : CacheEngine σ} {d : Digest} (h : Inv e)
    (hd : d ∈ e.objects) : ∃ time o, (e.lookup time d none).1 = .hit o := by
  obtain ⟨v, hv⟩ := List.exists_mem_of_length_pos
    (Nat.pos_of_ne_zero (h.length_variants_ne_zero hd))
  have hfresh : Fresh (v.tOrigin + v.ttl) none v := (fresh_none_iff (h.unflagged d v hv)).mpr le_rfl
  obtain ⟨o, ho⟩ := scanVariants_hit_iff_fresh.mpr ⟨v, hv, hfresh⟩
  refine ⟨v.tOrigin + v.ttl, o, ?_⟩
  rw [lookup_fst]
  exact ho

/-- **When a refused insertion leaves no trace**, in any state that calls lead
to: every lookup answers as before and the space in use is the same EXACTLY
when there was room before it, or nobody to evict. -/
theorem insert_refused_iff_room (sizes : TypeSizes) (e : CacheEngine MallocStevedore)
    (hreached : Reached (stevedore sizes) e) (now : VtimReal) (digest : Digest)
    (body : List UInt8) (ttlInfo : TtlInfo) (vary : Option (List UInt8)) (err : CacheError)
    (herr : (e.insert (stevedore sizes) now digest body ttlInfo vary).1.2 = .error err) :
    ((∀ time d headers, ((e.insert (stevedore sizes) now digest body ttlInfo vary).2.lookup time d
          headers).1 = (e.lookup time d headers).1) ∧
      (e.insert (stevedore sizes) now digest body ttlInfo vary).2.storage.usedSpace =
        e.storage.usedSpace) ↔
    e.lru.len < e.maxObjects ∨ e.lru.evictOldest.1 = none := by
  constructor
  · intro htraceless
    by_contra hfull
    rw [not_or, not_lt, ← ne_eq, ne_none_iff_exists'] at hfull
    obtain ⟨hcap, victim, hvictim⟩ := hfull
    have hinv := hreached.inv
    have heff := insert_effect (stevedore sizes) e now digest body ttlInfo vary
    -- the victim has an object that could be hit, and has none after the call
    have htracked : victim ∈ e.objects := by
      rcases e.lru.evictOldest_cases with hnone | ⟨d, hd, htracks, _⟩
      · rw [hnone] at hvictim
        cases hvictim
      · cases hd.symm.trans hvictim
        exact (hinv.tracked victim).mpr htracks
    obtain ⟨time, o, hhit⟩ := hinv.exists_hit htracked
    have hgone : (e.insert (stevedore sizes) now digest body ttlInfo vary).2.variants
        victim = [] := by
      rw [heff.variants_eq, if_pos, herr]
      · rfl
      · rw [insert_victims]
        exact mem_enforceCapacity _ hcap hvictim
    have hlost := htraceless.1 time victim none
    rw [hhit, lookup_fst, hgone] at hlost
    cases hlost
  · intro hroom
    rw [insert_error_of_room hroom herr]
    exact ⟨fun _ _ _ => rfl, rfl⟩

def oneStored (maxObjects : ℕ) : CacheEngine MallocStevedore :=
  (run (stevedore HintedStore.sizes64) (.new 100) maxObjects oneInsert).2

def insertLarge (e : CacheEngine MallocStevedore) :
    (List Digest × Except CacheError ObjCore) × CacheEngine MallocStevedore :=
  e.insert (stevedore HintedStore.sizes64) 1 ⟨.replicate 32 1⟩
    (List.replicate 100 0) .default none

theorem insert_refused_iff_room_below : (∀ time d headers,
        ((insertLarge (oneStored 10)).2.lookup time d headers).1 =
          ((oneStored 10).lookup time d headers).1) ∧
      (insertLarge (oneStored 10)).2.storage.usedSpace = (oneStored 10).storage.usedSpace :=
  (insert_refused_iff_room HintedStore.sizes64 (oneStored 10) ⟨_, _, _, rfl⟩ 1
    ⟨.replicate 32 1⟩ (List.replicate 100 0) .default none (.storage .full)
    (by decide +kernel)).mpr (.inl (by decide +kernel))

/-- At the limit the refused insertion has evicted already: an object is gone.
-/
theorem not_traceless_at_limit :
    (insertLarge (oneStored 1)).1.2 = .error (.storage .full) ∧
      (∃ o, ((oneStored 1).lookup 1 digestZero none).1 = .hit o) ∧
      ((insertLarge (oneStored 1)).2.lookup 1 digestZero none).1 = .miss ∧
      (oneStored 1).storage.usedSpace = 58 ∧
      (insertLarge (oneStored 1)).2.storage.usedSpace = 0 := by
  refine ⟨by decide +kernel, ⟨newObject 0 0 digestZero [104, 105] .default none, ?_⟩, ?_⟩
  · decide +kernel
  · decide +kernel

end Leak

section Limit

variable {σ : Type} {stv : Stevedore σ} {e : CacheEngine σ} {m : ℕ}

/-! ## The object limit -/

def count (e : CacheEngine σ) : ℕ := total (fun _ variants => variants.length) e.objects

/-- An insertion that the storage takes finds fewer objects than the limit, or
as many digests and one to evict. -/
def LimitOk (stv : Stevedore σ) (m : ℕ) (e : CacheEngine σ) (c : Call) : Prop :=
  match c.op with
  | .insert digest body ttlInfo _ => Takes stv e c.time digest body ttlInfo →
      e.count < m ∨ (m ≤ e.lru.len ∧ e.lru.evictOldest.1 ≠ none)
  | _ => True

theorem count_erase (e : CacheEngine σ) (d : Digest) :
    total (fun _ variants => variants.length) (e.objects.erase d) + (e.variants d).length =
      e.count := by
  have hweight : weight (fun _ variants => variants.length) e.objects d =
      (e.variants d).length := by
    unfold weight variants
    cases e.objects.lookup d <;> rfl
  rw [← hweight]
  exact total_erase _ e.objects d

theorem count_erase_le (e : CacheEngine σ) (d : Digest) :
    total (fun _ variants => variants.length) (e.objects.erase d) ≤ e.count := by
  have herase := count_erase e d
  omega

theorem count_publish (e : CacheEngine σ) (oc : ObjCore) : (publish e oc).count = e.count + 1 := by
  have herase := count_erase e oc.digest
  have hinsert := total_insert (fun _ variants => variants.length) e.objects oc.digest
    (e.variants oc.digest ++ [oc])
  rw [List.length_append, List.length_singleton] at hinsert
  show total _ (e.objects.insert oc.digest (e.variants oc.digest ++ [oc])) = _
  omega

theorem count_enforceCapacity (stv : Stevedore σ) (h : Inv e) :
    (enforceCapacity stv e).2.count + (enforceCapacity stv e).1.length ≤ e.count := by
  refine enforceCapacityLoop_induction stv
    (R := fun e drops e' => Inv e → e'.count + drops.length ≤ e.count) ?_ ?_ _ e h
  · intro e _
    exact le_rfl
  intro e victim lru drops e' htracked htracks hrest h
  have hrest := hrest (h.step (evictVictim_effect stv htracks) (by simp))
  have hmem := (h.tracked victim).mpr htracked
  have hlen := h.length_variants_ne_zero hmem
  have herase := count_erase e victim
  have hvictim : (evictVictim stv { e with lru := lru } victim).count =
      total (fun _ variants => variants.length) (e.objects.erase victim) := by
    obtain ⟨vs, hvs⟩ := isSome_iff_exists.mp (lookup_isSome.mpr hmem)
    simp only [evictVictim, hvs]
    rfl
  rw [hvictim] at hrest
  rw [List.length_cons]
  omega

theorem count_insert (stv : Stevedore σ) (e : CacheEngine σ) (now : VtimReal) (digest : Digest)
    (body : List UInt8) (ttlInfo : TtlInfo) (vary : Option (List UInt8)) :
    (e.insert stv now digest body ttlInfo vary).2.count = (enforceCapacity stv e).2.count +
      (e.insert stv now digest body ttlInfo vary).1.2.toOption.toList.length := by
  simp only [insert]
  split
  · rfl
  split
  · rfl
  · rw [count_publish]
    rfl

theorem count_lookup_le (e : CacheEngine σ) (now : VtimReal) (digest : Digest)
    (headers : Option HeaderMap) : (e.lookup now digest headers).2.count ≤ e.count := by
  unfold lookup
  split
  · split
    · exact le_rfl
    · exact le_rfl
    · exact count_erase_le e digest
  · exact le_rfl

theorem count_foldl_expireOne_le (stv : Stevedore σ) (l : List ObjCore) (e : CacheEngine σ) :
    (l.foldl (expireOne stv) e).count ≤ e.count := by
  induction l generalizing e with
  | nil => exact le_rfl
  | cons oc l ih => exact (ih _).trans (count_erase_le e oc.digest)

theorem enforceCapacity_maxObjects (stv : Stevedore σ) (e : CacheEngine σ) :
    (enforceCapacity stv e).2.maxObjects = e.maxObjects := by
  refine enforceCapacityLoop_induction stv (R := fun e _ e' => e'.maxObjects = e.maxObjects) ?_ ?_ _ e
  · exact fun _ => rfl
  intro e victim lru drops e' _ _ hrest
  rw [hrest]
  unfold evictVictim
  split <;> rfl

theorem foldl_expireOne_maxObjects (stv : Stevedore σ) (l : List ObjCore) (e : CacheEngine σ) :
    (l.foldl (expireOne stv) e).maxObjects = e.maxObjects := by
  induction l generalizing e with
  | nil => rfl
  | cons oc l ih => exact ih _

theorem step_maxObjects (stv : Stevedore σ) (e : CacheEngine σ) (c : Call) :
    (e.step stv c).2.maxObjects = e.maxObjects := by
  obtain ⟨time, op⟩ := c
  cases op with
  | insert digest body ttlInfo varyData =>
    have hroom := enforceCapacity_maxObjects stv e
    simp only [step, insert]
    split
    · exact hroom
    · split <;> exact hroom
  | lookup digest headers =>
    simp only [step, lookup]
    split
    · split <;> rfl
    · rfl
  | remove digest => rfl
  | purge digest => rfl
  | expireObjects => exact foldl_expireOne_maxObjects stv _ _

structure Limited (m : ℕ) (e : CacheEngine σ) : Prop where
  inv : Inv e
  limit : e.maxObjects = m
  count_le : e.count ≤ m

theorem Limited.insert (h : Limited m e) (now : VtimReal) (digest : Digest)
    (body : List UInt8) (ttlInfo : TtlInfo) (vary : Option (List UInt8)) :
    (e.insert stv now digest body ttlInfo vary).2.count ≤ m ↔
      (Takes stv e now digest body ttlInfo →
        e.count < m ∨ (m ≤ e.lru.len ∧ e.lru.evictOldest.1 ≠ none)) := by
  have hroom := count_enforceCapacity stv h.inv
  have hle := h.count_le
  have htakes : (∃ oc, (e.insert stv now digest body ttlInfo vary).1.2 = .ok oc) ↔
      Takes stv e now digest body ttlInfo := exists_insert_ok_iff
  rw [count_insert, ← htakes]
  cases hr : (e.insert stv now digest body ttlInfo vary).1.2 with
  | error err =>
    refine iff_of_true ?_ ?_
    · show (enforceCapacity stv e).2.count + 0 ≤ m
      omega
    · rintro ⟨oc, hoc⟩
      cases hoc
  | ok oc =>
    show (enforceCapacity stv e).2.count + 1 ≤ m ↔ _
    by_cases hevict : m ≤ e.lru.len ∧ e.lru.evictOldest.1 ≠ none
    · -- a victim makes up for the new object
      obtain ⟨victim, hvictim⟩ := ne_none_iff_exists'.mp hevict.2
      have hpos := List.length_pos_of_mem
        (mem_enforceCapacity stv (h.limit.le.trans hevict.1) hvictim)
      exact iff_of_true (by omega) fun _ => .inr hevict
    have hidle : e.lru.len < e.maxObjects ∨ e.lru.evictOldest.1 = none := by
      rw [h.limit]
      by_contra hno
      rw [not_or, not_lt] at hno
      exact hevict hno
    rw [enforceCapacity_of_room stv hidle]
    constructor
    · intro hcount _
      exact .inl hcount
    · intro hok
      exact (hok ⟨oc, rfl⟩).resolve_right hevict

theorem Limited.step_iff (h : Limited m e) (c : Call) :
    (e.step stv c).2.count ≤ m ↔ LimitOk stv m e c := by
  obtain ⟨time, op⟩ := c
  cases op with
  | insert digest body ttlInfo varyData => exact h.insert time digest body ttlInfo varyData
  | lookup digest headers =>
    exact iff_of_true ((count_lookup_le e time digest headers).trans h.count_le) trivial
  | remove digest | purge digest =>
    exact iff_of_true ((count_erase_le e digest).trans h.count_le) trivial
  | expireObjects =>
    exact iff_of_true ((count_foldl_expireOne_le stv _ _).trans h.count_le) trivial

theorem Limited.step (h : Limited m e) (c : Call) (hok : LimitOk stv m e c) :
    Limited m (e.step stv c).2 where
  inv := h.inv.call c
  limit := (step_maxObjects stv e c).trans h.limit
  count_le := h.step_iff c |>.mpr hok

/-- **When the object limit holds**, over any calls on an empty engine with
any storage: after every call at most `m` objects are stored, every variant
counted, EXACTLY when each insertion that the storage takes finds fewer than
`m` objects, or `m` digests and one of them to evict. -/
theorem count_le_iff_limitOk (stv : Stevedore σ) (storage : σ) (m : ℕ) (calls : List Call) :
    Guarded (CacheEngine.step stv) (fun e c => (e.step stv c).2.count ≤ m) (new storage m)
        calls ↔
      Guarded (CacheEngine.step stv) (LimitOk stv m) (new storage m) calls :=
  guarded_iff_guarded _ (P := Limited m) (fun _ c h => h.step_iff c) (fun _ c h => h.step c)
    ⟨inv_new storage m, rfl, Nat.zero_le m⟩

/-- Three variants of one digest, under a limit of two objects. -/
theorem not_count_le_variants : ¬ Guarded (CacheEngine.step .unlimited)
      (fun e c => (e.step .unlimited c).2.count ≤ 2) (new () 2)
      [⟨0, .insert digestZero [104] .default (some [1])⟩,
        ⟨0, .insert digestZero [105] .default (some [2])⟩,
        ⟨0, .insert digestZero [106] .default (some [3])⟩] := by
  rintro ⟨-, -, hcount, -⟩
  revert hcount
  decide +kernel

end Limit

end CacheEngine

end VarahaCache
